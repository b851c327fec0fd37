import Gherkin.Proofs.Outline.Leftovers

/-!
# Templates

A text of an outline is filled in by a split that the columns alone determine: characters that are kept, and
references to columns, the longest one wherever several are written at one place.  A row only supplies what
the references stand for.  So neither the order of the columns nor what the cells hold has any influence on
where cells are put in.
-/

namespace Gherkin

namespace Placeholder

inductive Piece where
  | kept (c : Char)
  /-- A column between its brackets. -/
  | reference (header : String)
deriving DecidableEq, Repr

def Piece.written : Piece → List Char
  | .kept c => [c]
  | .reference header => bracketed header.toList

def Piece.fill (row : List (String × String)) : Piece → List Char
  | .kept c => [c]
  | .reference header => ((row.lookup header).getD "").toList

def render (row : List (String × String)) (pieces : List Piece) : String :=
  String.ofList (pieces.flatMap (Piece.fill row))

/-- The column that is written at the front of a text and closed there, the longest if there are several. -/
structure Refers (headers : List String) (cs : List Char) (header : String) (rest : List Char) : Prop where
  mem : header ∈ headers
  written : cs = header.toList ++ '>' :: rest
  longest : ∀ other ∈ headers, other.toList ++ ['>'] <+: cs → other.toList.length ≤ header.toList.length

/-- A text and its parts.  At every `<` a column is referred to if any is written there. -/
inductive Splits (headers : List String) : List Char → List Piece → Prop
  | nil : Splits headers [] []
  | reference {cs rest : List Char} {header : String} {pieces : List Piece} :
      Refers headers cs header rest → Splits headers rest pieces →
      Splits headers ('<' :: cs) (.reference header :: pieces)
  | kept {c : Char} {cs : List Char} {pieces : List Piece} :
      (c = '<' → ∀ header ∈ headers, ¬ header.toList ++ ['>'] <+: cs) → Splits headers cs pieces →
      Splits headers (c :: cs) (.kept c :: pieces)

/-! ## Splits -/

section
variable {headers : List String} {cs : List Char}

theorem exists_refers (h : ∃ header ∈ headers, header.toList ++ ['>'] <+: cs) :
    ∃ header rest, Refers headers cs header rest := by
  let fitting : List String := headers.filter fun header => header.toList ++ ['>'] <+: cs
  have hmem : ∀ header, header ∈ fitting ↔ header ∈ headers ∧ header.toList ++ ['>'] <+: cs := by
    intro header
    rw [List.mem_filter, decide_eq_true_iff]
  obtain ⟨header, hheader⟩ := h
  cases hlongest : fitting.argmax fun s => s.toList.length with
  | none =>
    rw [List.argmax_eq_none] at hlongest
    exact absurd ((hmem header).2 hheader) (by simp [hlongest])
  | some found =>
    obtain ⟨hfound, rest, hrest⟩ := (hmem found).1 (List.argmax_mem hlongest)
    refine ⟨found, rest, hfound, ?_, fun other hother hfits => ?_⟩
    · rw [← hrest, List.append_assoc, List.singleton_append]
    · exact List.le_of_mem_argmax (f := fun s : String => s.toList.length)
        ((hmem other).2 ⟨hother, hfits⟩) hlongest

theorem Refers.length_lt {header : String} {rest : List Char} (h : Refers headers cs header rest) :
    rest.length < cs.length := by
  rw [h.written, List.length_append, List.length_cons]
  omega

theorem exists_splits (headers : List String) (cs : List Char) : ∃ pieces, Splits headers cs pieces := by
  -- On the length, since a reference takes more than one character.
  induction hlength : cs.length using Nat.strong_induction_on generalizing cs with
  | _ n ih =>
    cases cs with
    | nil => exact ⟨[], .nil⟩
    | cons c cs =>
      rw [List.length_cons] at hlength
      by_cases hopens : c = '<' ∧ ∃ header ∈ headers, header.toList ++ ['>'] <+: cs
      · obtain ⟨rfl, hfits⟩ := hopens
        obtain ⟨header, rest, hrefers⟩ := exists_refers hfits
        have hshorter := hrefers.length_lt
        obtain ⟨pieces, hpieces⟩ := ih rest.length (by omega) rest rfl
        exact ⟨_, .reference hrefers hpieces⟩
      · obtain ⟨pieces, hpieces⟩ := ih cs.length (by omega) cs rfl
        exact ⟨_, .kept (fun hc header hheader hfits => hopens ⟨hc, header, hheader, hfits⟩) hpieces⟩

variable {pieces : List Piece}

/-- The parts are the whole text. -/
theorem Splits.written (h : Splits headers cs pieces) : pieces.flatMap Piece.written = cs := by
  induction h with
  | nil => rfl
  | reference hrefers _ ih =>
    rw [List.flatMap_cons, ih, hrefers.written, Piece.written, bracketed, List.cons_append,
      List.append_assoc, List.singleton_append]
  | kept _ _ ih =>
    rw [List.flatMap_cons, ih]
    rfl

theorem Splits.mem_of_reference (h : Splits headers cs pieces) {header : String}
    (hmem : .reference header ∈ pieces) : header ∈ headers := by
  induction h with
  | nil => simp at hmem
  | reference hrefers _ ih =>
    rcases List.mem_cons.1 hmem with heq | hmem
    · rw [Piece.reference.inj heq]
      exact hrefers.mem
    · exact ih hmem
  | kept _ _ ih =>
    rcases List.mem_cons.1 hmem with heq | hmem
    · simp at heq
    · exact ih hmem

end

/-! ## Rows -/

/-- Of two columns that fit at one place the longer one has more bytes. -/
theorem utf8ByteSize_lt_of_fits {name header : String} {cs : List Char} (hne : name ≠ header)
    (hname : name.toList ++ ['>'] <+: cs) (hheader : header.toList ++ ['>'] <+: cs)
    (hlength : name.toList.length ≤ header.toList.length) : name.utf8ByteSize < header.utf8ByteSize := by
  have hprefix : header.toList <+: cs := (List.prefix_append _ _).trans hheader
  have hlonger : name.toList.length < header.toList.length := by
    apply Nat.lt_of_le_of_ne hlength
    intro heq
    have hsame : name.toList ++ ['>'] = header.toList ++ ['>'] :=
      (List.prefix_of_prefix_length_le hname hheader (by simp [heq])).eq_of_length (by simp [heq])
    exact hne (String.toList_inj.1 (List.append_cancel_right hsame))
  obtain ⟨mid, hmid⟩ := List.prefix_of_prefix_length_le hname hprefix (by simpa using hlonger)
  have heq : header = name ++ String.ofList ('>' :: mid) := by
    rw [← String.toList_inj, String.toList_append, String.toList_ofList, ← hmid]
    simp
  have hpos : (String.ofList ('>' :: mid)).utf8ByteSize ≠ 0 := by
    rw [Ne, String.utf8ByteSize_eq_zero_iff, ← String.toList_inj, String.toList_ofList]
    simp
  rw [heq, String.utf8ByteSize_append]
  omega

/-- The bindings of a row stand in the order of their keys' bytes. -/
theorem pairwise_bindings (row : List (String × String)) : (bindings row).Pairwise fun a b =>
    (String.ofList b.1).utf8ByteSize ≤ (String.ofList a.1).utf8ByteSize := by
  have htrans : ∀ a b c : String × String, decide (b.1.utf8ByteSize ≤ a.1.utf8ByteSize) = true →
      decide (c.1.utf8ByteSize ≤ b.1.utf8ByteSize) = true →
        decide (c.1.utf8ByteSize ≤ a.1.utf8ByteSize) = true := by
    intro a b c hab hbc
    simp only [decide_eq_true_eq] at *
    omega
  have htotal : ∀ a b : String × String, (decide (b.1.utf8ByteSize ≤ a.1.utf8ByteSize) ||
      decide (a.1.utf8ByteSize ≤ b.1.utf8ByteSize)) = true := by
    intro a b
    simp only [Bool.or_eq_true, decide_eq_true_eq]
    omega
  have hsorted := List.pairwise_mergeSort htrans htotal row
  refine List.pairwise_map.2 (hsorted.imp fun {a b} hab => ?_)
  simpa using hab

section
variable {row row' : List (String × String)} (hrow : (row.map Prod.fst).Nodup)
include hrow

/-- A row whose columns are distinct has one cell in each. -/
theorem lookup_eq_some_iff_mem {header cell : String} :
    row.lookup header = some cell ↔ (header, cell) ∈ row := by
  induction row with
  | nil => simp
  | cons x row ih =>
    obtain ⟨name, value⟩ := x
    rw [List.map_cons, List.nodup_cons] at hrow
    rw [List.mem_cons, Prod.mk.injEq]
    by_cases hname : header = name
    · subst hname
      have hother : (header, cell) ∉ row := fun hmem => hrow.1 (List.mem_map.2 ⟨_, hmem, rfl⟩)
      rw [List.lookup_cons_self, Option.some.injEq]
      simp [hother, eq_comm]
    · rw [List.lookup_cons, beq_eq_false_iff_ne.2 hname]
      simp [hname, ih hrow.2]

theorem lookup_eq_of_perm (hperm : row.Perm row') (header : String) :
    row'.lookup header = row.lookup header := by
  have hrow' : (row'.map Prod.fst).Nodup := (hperm.map Prod.fst).nodup_iff.1 hrow
  apply Option.ext
  intro cell
  rw [lookup_eq_some_iff_mem hrow, lookup_eq_some_iff_mem hrow', hperm.mem_iff]

theorem render_eq_of_perm (hperm : row.Perm row') (pieces : List Piece) :
    render row' pieces = render row pieces := by
  have hfill : Piece.fill row' = Piece.fill row := by
    funext piece
    cases piece with
    | kept c => rfl
    | reference header => rw [Piece.fill, Piece.fill, lookup_eq_of_perm hrow hperm]
  rw [render, render, hfill]

/-- Longer keys come first, so the column that is found is the longest one that is written there. -/
theorem lookup?_bindings {headers : List String} (hheaders : ∀ name, name ∈ row.map Prod.fst ↔ name ∈ headers)
    {cs rest : List Char} {header : String} (h : Refers headers cs header rest) :
    lookup? (bindings row) cs = some ((Piece.reference header).fill row, rest) := by
  obtain ⟨cell, hcell⟩ : ∃ cell, (header, cell) ∈ row := by
    obtain ⟨⟨_, cell⟩, hcell, rfl⟩ := List.mem_map.1 ((hheaders header).2 h.mem)
    exact ⟨cell, hcell⟩
  have hbinding : (header.toList, cell.toList) ∈ bindings row := mem_bindings.2 ⟨header, cell, hcell, rfl⟩
  have hdrop : Text.dropWord? (header.toList ++ ['>']) cs = some rest := by
    rw [Text.dropWord?_eq_some_iff, h.written, List.append_assoc, List.singleton_append]
  cases hfound : lookup? (bindings row) cs with
  | none =>
    rw [h.written] at hfound
    exact absurd hfound (lookup?_append_ne_none hbinding rest)
  | some found =>
    obtain ⟨before, ⟨key, value⟩, after, hsplit, hkey, hbefore⟩ := List.findSome?_eq_some_iff.1 hfound
    obtain ⟨rest', hrest', rfl⟩ := Option.map_eq_some_iff.1 hkey
    have hmem : (key, value) ∈ bindings row := by simp [hsplit]
    obtain ⟨name, cell', hcell', hnamed⟩ := mem_bindings.1 hmem
    obtain ⟨rfl, rfl⟩ := Prod.mk.inj hnamed
    have hname : name = header := by
      by_contra hne
      have hfits : name.toList ++ ['>'] <+: cs := ⟨rest', (Text.dropWord?_eq_some_iff.1 hrest').symm⟩
      have hlength := h.longest name ((hheaders name).1 (List.mem_map_of_mem (f := Prod.fst) hcell')) hfits
      have hbytes := utf8ByteSize_lt_of_fits hne hfits
        ⟨rest, (Text.dropWord?_eq_some_iff.1 hdrop).symm⟩ hlength
      -- The longer key stands before this one, and so it would have been found.
      rw [hsplit] at hbinding
      rcases List.mem_append.1 hbinding with hbinding | hbinding
      · have hnone := hbefore _ hbinding
        simp [hdrop] at hnone
      rcases List.mem_cons.1 hbinding with heq | hbinding
      · exact hne (String.toList_inj.1 (Prod.mk.inj heq).1.symm)
      · have hordered := pairwise_bindings row
        rw [hsplit] at hordered
        have hle := (List.pairwise_cons.1 (List.pairwise_append.1 hordered).2.1).1 _ hbinding
        simp only [String.ofList_toList] at hle
        omega
    subst hname
    have hlookup := (lookup_eq_some_iff_mem hrow).2 hcell
    have hsame : cell' = cell := by
      rw [(lookup_eq_some_iff_mem hrow).2 hcell'] at hlookup
      exact Option.some.inj hlookup
    rw [hdrop] at hrest'
    rw [Piece.fill, hlookup, ← Option.some.inj hrest', hsame]
    rfl

/-- What is filled in is what the parts of the template stand for. -/
theorem Splits.substitute_eq {headers : List String}
    (hheaders : ∀ name, name ∈ row.map Prod.fst ↔ name ∈ headers) {cs : List Char} {pieces : List Piece}
    (h : Splits headers cs pieces) : substitute (bindings row) cs = pieces.flatMap (Piece.fill row) := by
  induction h with
  | nil => rw [substitute_nil, List.flatMap_nil]
  | reference hrefers _ ih =>
    rw [substitute_of_lookup? (lookup?_bindings hrow hheaders hrefers), ih, List.flatMap_cons]
  | @kept c cs pieces hopens _ ih =>
    have hnone : c = '<' → lookup? (bindings row) cs = none := by
      intro hc
      -- What would be found here is a column that is written here, and there is none.
      rw [Option.eq_none_iff_forall_ne_some]
      rintro ⟨value, rest⟩ hfound
      obtain ⟨key, hkey, heq⟩ := exists_of_lookup? hfound
      obtain ⟨name, cell, hcell, hnamed⟩ := mem_bindings.1 hkey
      have hmem := (hheaders name).1 (List.mem_map_of_mem (f := Prod.fst) hcell)
      refine hopens hc name hmem ⟨rest, ?_⟩
      rw [heq, (Prod.mk.inj hnamed).1, List.append_assoc, List.singleton_append]
    rw [substitute_cons hnone, ih, List.flatMap_cons]
    rfl

theorem fill_eq_render {headers : List String}
    (hheaders : ∀ name, name ∈ row.map Prod.fst ↔ name ∈ headers) {text : String} {pieces : List Piece}
    (h : Splits headers text.toList pieces) : fill row text = render row pieces := by
  rw [fill, render, h.substitute_eq hrow hheaders]

theorem fill_eq_of_perm (hperm : row.Perm row') : fill row' = fill row := by
  have hrow' : (row'.map Prod.fst).Nodup := (hperm.map Prod.fst).nodup_iff.1 hrow
  funext text
  obtain ⟨pieces, hpieces⟩ := exists_splits (row.map Prod.fst) text.toList
  have hheaders : ∀ name, name ∈ row'.map Prod.fst ↔ name ∈ row.map Prod.fst :=
    fun name => (hperm.map Prod.fst).symm.mem_iff
  rw [fill_eq_render hrow' hheaders hpieces, fill_eq_render hrow (fun _ => Iff.rfl) hpieces,
    render_eq_of_perm hrow hperm]

end

end Placeholder

/-! ## Columns -/

namespace Table

def reorder (t : Table) (columns : List Nat) : Table :=
  { t with rows := t.rows.map fun cells => columns.filterMap (cells[·]?) }

theorem filterMap_range_getElem? {α : Type} (xs : List α) :
    (List.range xs.length).filterMap (xs[·]?) = xs := by
  induction xs using List.reverseRecOn with
  | nil => rfl
  | append_singleton xs x ih =>
    have hfront : (List.range xs.length).filterMap ((xs ++ [x])[·]?) =
        (List.range xs.length).filterMap (xs[·]?) := by
      apply List.filterMap_congr
      intro i hi
      exact List.getElem?_append_left (List.mem_range.1 hi)
    rw [List.length_append, List.length_singleton, List.range_succ, List.filterMap_append, hfront, ih]
    simp

section
variable {columns : List Nat} {headers cells : List String}

theorem zip_reorder (hlength : cells.length = headers.length) (hcolumns : ∀ i ∈ columns, i < headers.length) :
    (columns.filterMap (headers[·]?)).zip (columns.filterMap (cells[·]?)) =
      columns.filterMap ((headers.zip cells)[·]?) := by
  induction columns with
  | nil => rfl
  | cons i columns ih =>
    have hi := hcolumns i List.mem_cons_self
    have hheader : headers[i]? = some headers[i] := List.getElem?_eq_getElem hi
    have hcell : cells[i]? = some cells[i] := List.getElem?_eq_getElem (hlength ▸ hi)
    have hpair : (headers.zip cells)[i]? = some (headers[i], cells[i]) :=
      List.getElem?_zip_eq_some.2 ⟨hheader, hcell⟩
    rw [List.filterMap_cons_some hheader, List.filterMap_cons_some hcell, List.filterMap_cons_some hpair,
      List.zip_cons_cons, ih fun j hj => hcolumns j (List.mem_cons_of_mem i hj)]

/-- A row of the reordered table binds the same columns to the same cells. -/
theorem zip_reorder_perm (hlength : cells.length = headers.length)
    (hcolumns : columns.Perm (List.range headers.length)) :
    (headers.zip cells).Perm ((columns.filterMap (headers[·]?)).zip (columns.filterMap (cells[·]?))) := by
  have hbound : ∀ i ∈ columns, i < headers.length := fun i hi => List.mem_range.1 (hcolumns.mem_iff.1 hi)
  have hzip : (headers.zip cells).length = headers.length := by simp [hlength]
  rw [zip_reorder hlength hbound]
  have hperm := hcolumns.filterMap ((headers.zip cells)[·]?)
  rw [← hzip, filterMap_range_getElem?] at hperm
  exact hperm.symm

end

theorem headers_reorder (t : Table) (columns : List Nat) :
    (t.reorder columns).headers = columns.filterMap (t.headers[·]?) := by
  unfold headers reorder
  cases t.rows <;> simp

theorem dataRows_reorder (t : Table) (columns : List Nat) :
    (t.reorder columns).dataRows = t.dataRows.map fun cells => columns.filterMap (cells[·]?) := by
  unfold dataRows reorder
  rw [List.map_drop]

end Table

/-! ## Outlines -/

namespace Outline

def filled (o : Outline) (e : Examples) (f : String → String) : Scenario where
  name := f o.name
  description := o.description
  tags := Tag.merge o.tags e.tags
  steps := o.steps.map (Step.mapTexts f)
  location := o.location

theorem instantiate_eq_filled (o : Outline) (e : Examples) (row : List (String × String)) :
    o.instantiate e row = o.filled e (Placeholder.fill row) := rfl

section
variable {o : Outline} {e : Examples} {t : Table} (htable : e.table = some t) (hheaders : t.headers.Nodup)
  (hsquare : ∀ cells ∈ t.dataRows, cells.length = t.width)
include htable hheaders hsquare

theorem expandBlock_eq_render {headers : List String} (hmem : ∀ name, name ∈ t.headers ↔ name ∈ headers)
    {split : String → List Placeholder.Piece}
    (hsplit : ∀ text, Placeholder.Splits headers text.toList (split text)) :
    o.expandBlock e =
      t.records.map fun row => o.filled e fun text => Placeholder.render row (split text) := by
  unfold expandBlock
  rw [htable]
  apply List.map_congr_left
  intro row hrow
  obtain ⟨cells, hcells, rfl⟩ := Table.mem_of_mem_records hrow
  have hkeys : (t.headers.zip cells).map Prod.fst = t.headers :=
    List.map_fst_zip (hsquare cells hcells).ge
  rw [instantiate_eq_filled]
  congr 1
  funext text
  exact Placeholder.fill_eq_render (by rwa [hkeys]) (by rwa [hkeys]) (hsplit text)

theorem expandBlock_reorder {columns : List Nat} (hcolumns : columns.Perm (List.range t.width)) :
    o.expandBlock { e with table := some (t.reorder columns) } = o.expandBlock e := by
  unfold expandBlock
  rw [htable]
  dsimp only
  rw [Table.records, Table.records, Table.dataRows_reorder, Table.headers_reorder, List.map_map, List.map_map,
    List.map_map]
  apply List.map_congr_left
  intro cells hcells
  have hkeys : (t.headers.zip cells).map Prod.fst = t.headers :=
    List.map_fst_zip (hsquare cells hcells).ge
  have hperm := Table.zip_reorder_perm (hsquare cells hcells) hcolumns
  rw [Function.comp, Function.comp, Function.comp, instantiate_eq_filled, instantiate_eq_filled,
    Placeholder.fill_eq_of_perm (by rwa [hkeys]) hperm]
  rfl

end

/-- For columns with distinct names, in any order, there is one way to split every text into characters that
are kept and references to columns.  Every row of every table with these columns fills in the texts of an
outline by putting its cells in the place of the references.  So the columns of one of the tables of an outline
can change places, header and cells alike, and the outline stands for the same scenarios. -/
theorem expand_eq_of_distinct_columns (headers : List String) (hheaders : headers.Nodup) :
    ∃ split : String → List Placeholder.Piece,
      (∀ text, Placeholder.Splits headers text.toList (split text) ∧
        (split text).flatMap Placeholder.Piece.written = text.toList ∧
        ∀ header, .reference header ∈ split text → header ∈ headers) ∧
      ∀ (o : Outline) (e : Examples) (t : Table), e.table = some t → t.headers.Perm headers →
        (∀ cells ∈ t.dataRows, cells.length = t.width) →
        o.expandBlock e =
          t.records.map (fun row => o.filled e fun text => Placeholder.render row (split text)) ∧
        ∀ columns, columns.Perm (List.range t.width) → ∀ before after, o.examples = before ++ e :: after →
          expand { o with examples := before ++ { e with table := some (t.reorder columns) } :: after } =
            o.expand := by
  have hsplits : ∀ text : String, ∃ pieces, Placeholder.Splits headers text.toList pieces :=
    fun text => Placeholder.exists_splits headers text.toList
  choose split hsplit using hsplits
  refine ⟨split, fun text => ⟨hsplit text, (hsplit text).written, fun header => (hsplit text).mem_of_reference⟩,
    ?_⟩
  intro o e t htable hperm hsquare
  have hnodup : t.headers.Nodup := hperm.nodup_iff.2 hheaders
  refine ⟨expandBlock_eq_render htable hnodup hsquare (fun _ => hperm.mem_iff) hsplit, ?_⟩
  intro columns hcolumns before after hexamples
  -- A block of examples is expanded with the name, the tags and the steps of the outline only.
  have hblock : ∀ blocks : List Examples, expandBlock { o with examples := blocks } = o.expandBlock :=
    fun _ => rfl
  rw [expand, expand, hexamples, List.flatMap_append, List.flatMap_append, List.flatMap_cons, List.flatMap_cons]
  simp only [hblock]
  rw [expandBlock_reorder htable hnodup hsquare hcolumns]

/-- Columns with brackets in their names, one of them in front of another and one without a name, and a cell
that looks like a placeholder. -/
theorem expand_eq_of_distinct_columns_of_brackets : ∃ (o : Outline) (e : Examples) (t : Table),
    o.steps.map Step.text = ["<a>b> <<a> <>"] ∧
      t.rows = [["a", "a>b", "<a", ""], ["1", "<a>", "2", "<"]] ∧ e.table = some t ∧ t.headers.Nodup ∧
      (∀ cells ∈ t.dataRows, cells.length = t.width) ∧ o.examples = [e] ∧
      o.expand.map (fun s => s.steps.map Step.text) = [["<a> 2 <"]] ∧
      (t.reorder [3, 1, 0, 2]).rows = [["", "a>b", "a", "<a"], ["<", "<a>", "1", "2"]] ∧
      expand { o with examples := [{ e with table := some (t.reorder [3, 1, 0, 2]) }] } = o.expand := by
  let t : Table := ⟨[["a", "a>b", "<a", ""], ["1", "<a>", "2", "<"]], .start⟩
  let e : Examples := ⟨none, none, [], some t, .start⟩
  let o : Outline := ⟨"", none, [], [⟨.given, "<a>b> <<a> <>", none, none, .start⟩], [e], .start⟩
  have hheaders : t.headers.Nodup := by decide
  have hsquare : ∀ cells ∈ t.dataRows, cells.length = t.width := by decide
  have htexts : o.expand.map (fun s => s.steps.map Step.text) = [["<a> 2 <"]] := by cbv
  obtain ⟨split, -, hexpand⟩ := expand_eq_of_distinct_columns t.headers hheaders
  have hreorder := (hexpand o e t rfl (List.Perm.refl _) hsquare).2 [3, 1, 0, 2] (by decide) [] [] rfl
  exact ⟨o, e, t, rfl, rfl, rfl, hheaders, hsquare, rfl, htexts, rfl, hreorder⟩

end Outline

end Gherkin
