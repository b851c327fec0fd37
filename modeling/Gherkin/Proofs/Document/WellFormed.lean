import Gherkin.Proofs.Document.Nodes
import Gherkin.Proofs.Outline.Expansion
import Gherkin.Proofs.Printing.Contents

/-!
# Documents without a fault

Every part of a document that is read without a fault has passed its own check: a step has a text, a table
is square, and the examples of an outline have a column for each of its placeholders.  A reader that meets
no fault has read each part of its result without one, so what holds of each kind of part holds of all the
parts of a document.
-/

namespace Gherkin

/-! ## Well-formed parts -/

/-- A table with rows as long as the first one, and no blanks around a cell. -/
structure Table.WellFormed (t : Table) : Prop where
  rows : t.rows ≠ []
  square : ∀ row ∈ t.rows, row.length = t.width
  trimmed : ∀ row ∈ t.rows, ∀ cell ∈ row, Text.trim cell.toList = cell.toList

/-- A step with a text on one line, and with a table or a doc string but not with both. -/
structure Step.WellFormed (s : Step) : Prop where
  text : IsTitle s.text
  nonempty : s.text ≠ ""
  single : s.table = none ∨ s.docString = none
  table : ∀ t ∈ s.table, t.WellFormed

/-- An outline with examples, each of them with a table that has a column for every placeholder. -/
structure Outline.WellFormed (o : Outline) : Prop where
  steps : ∀ s ∈ o.steps, s.WellFormed
  examples : o.examples ≠ []
  table : ∀ e ∈ o.examples, ∃ t, e.table = some t ∧ t.WellFormed ∧ ∀ name ∈ o.parameters, name ∈ t.headers

def Child.WellFormed : Child → Prop
  | .scenario s => ∀ x ∈ s.steps, x.WellFormed
  | .outline o => o.WellFormed

structure Feature.WellFormed (f : Feature) : Prop where
  background : ∀ b ∈ f.background, ∀ s ∈ b.steps, s.WellFormed
  children : ∀ c ∈ f.children, c.WellFormed

def Node.WellFormed : Node → Prop
  | .step s => s.WellFormed
  | .table t => t.WellFormed
  | .outline o => o.WellFormed
  | .feature _ | .background _ | .scenario _ | .examples _ | .docString _ => True

/-! ## Scenarios of data rows -/

namespace Outline

/-- The data rows of all blocks of examples in order, each with its block. -/
def dataRows (o : Outline) : List (Examples × List String) :=
  o.examples.flatMap fun e => e.table.toList.flatMap fun t => t.dataRows.map fun cells => (e, cells)

theorem mem_dataRows {o : Outline} {e : Examples} {cells : List String} :
    (e, cells) ∈ o.dataRows ↔ e ∈ o.examples ∧ ∃ t, e.table = some t ∧ cells ∈ t.dataRows := by
  simp only [dataRows, List.mem_flatMap, List.mem_map, Option.mem_toList, Prod.mk.injEq]
  constructor
  · rintro ⟨e', he, t, ht, cells', hcells, rfl, rfl⟩
    exact ⟨he, t, ht, hcells⟩
  · rintro ⟨he, t, ht, hcells⟩
    exact ⟨e, he, t, ht, cells, hcells, rfl, rfl⟩

theorem expand_eq (o : Outline) : o.expand = o.dataRows.map fun (e, cells) =>
    o.instantiate e (((e.table.map Table.headers).getD []).zip cells) := by
  unfold expand dataRows
  rw [List.map_flatMap]
  congr 1
  funext e
  unfold expandBlock
  cases htable : e.table with
  | none => rfl
  | some t => simp [htable, Table.records]

/-- A well-formed outline stands for a scenario for each data row, in which every column is bound to the
cell that the row has there. -/
theorem WellFormed.expand {o : Outline} (h : o.WellFormed) :
    List.Forall₂ (fun (e, cells) s => ∃ t row, e.table = some t ∧ row.map Prod.fst = t.headers ∧
      row.map Prod.snd = cells ∧ s = o.instantiate e row) o.dataRows o.expand := by
  rw [expand_eq, List.forall₂_map_right_iff, List.forall₂_same]
  rintro ⟨e, cells⟩ hrow
  obtain ⟨he, t, htable, hcells⟩ := mem_dataRows.1 hrow
  obtain ⟨t', htable', hwell, -⟩ := h.table e he
  obtain rfl := Option.some.inj (htable.symm.trans htable')
  -- The row is as long as the header, so pairing them loses no column and no cell.
  have hlength : cells.length = t.headers.length := hwell.square cells (List.mem_of_mem_drop hcells)
  refine ⟨t, t.headers.zip cells, htable, List.map_fst_zip hlength.ge, List.map_snd_zip hlength.le, ?_⟩
  simp [htable]

end Outline

namespace Reader

/-! ## Parts of readings without a fault -/

section
variable {source : List Char} {ts : List Token}

theorem exists_of_mem_steps {x : Step} (hx : x ∈ (steps source ts).value) :
    ∃ k t more, t :: more <:+ ts ∧ x = (step source k t more).value ∧
      ((steps source ts).errors = [] → (step source k t more).errors = []) := by
  fun_induction steps source ts with
  | case1 => simp at hx
  | case2 ts t more hgaps k hk first _ others ih =>
    rcases List.mem_cons.1 hx with rfl | hx
    · exact ⟨k, t, more, hgaps ▸ skipGaps_suffix ts, rfl, fun hclean => (List.append_eq_nil_iff.1 hclean).1⟩
    · rcases ih hx with ⟨k', t', more', hts, hx, herrors⟩
      have hrest : first.rest <:+ ts := suffix_of_skipGaps hgaps (step_suffix source k t more)
      exact ⟨k', t', more', hts.trans hrest, hx, fun hclean => herrors (List.append_eq_nil_iff.1 hclean).2⟩
  | case3 => simp at hx
  | case4 => simp at hx

theorem exists_of_mem_exampleBlocks {started : Bool} {x : Examples}
    (hx : x ∈ (exampleBlocks source started ts).value)
    (hclean : (exampleBlocks source started ts).errors = []) :
    ∃ before t more, before <:+ ts ∧ skipTags before = t :: more ∧ t.kind = .block .examples ∧
      x = (examples source (tagRun before).tags t more).value ∧
      (examples source (tagRun before).tags t more).errors = [] := by
  fun_induction exampleBlocks source started ts with
  | case1 => simp at hx
  | case2 started ts t more hskip _ hk first _ others ih =>
    rcases List.append_eq_nil_iff.1 hclean with ⟨hfirst, hothers⟩
    rcases List.mem_cons.1 hx with rfl | hx
    · exact ⟨ts, t, more, List.suffix_refl ts, hskip, hk, rfl, hfirst⟩
    · rcases ih hx hothers with ⟨before, t', more', hts, hbefore⟩
      have hrest : first.rest <:+ ts := suffix_of_skipTags hskip (examples_suffix source _ t more)
      exact ⟨before, t', more', hts.trans hrest, hbefore⟩
  | case3 => simp at hclean
  | case4 => simp at hx
  | case5 => simp at hx

/-- What every background and every child that is read without a fault keeps true of a feature is true of
the feature that is read without a fault. -/
theorem holds_body {P : Feature → Prop} {f : Feature} (hf : P f)
    (hbackground : ∀ g t more, t :: more <:+ ts → t.kind = .block .background →
      (background source t more).errors = [] → P g →
      P { g with background := some (background source t more).value })
    (hchild : ∀ g before t more, before <:+ ts → skipTags before = t :: more → t.kind.isKeyword →
      (child source (tagRun before).tags t more).errors = [] → P g →
      P { g with children := g.children ++ [(child source (tagRun before).tags t more).value] })
    (hclean : (body source f ts).2 = []) : P (body source f ts).1 := by
  fun_induction body source f ts with
  | case1 => exact hf
  | case2 f ts run t more hskip _ _ hk read _ tagged misplaced f' g errors hbody ih =>
    simp only [List.append_eq_nil_iff] at hclean
    rcases hclean with ⟨⟨⟨htagged, hmisplaced⟩, hread⟩, herrors⟩
    have hmore : t :: more <:+ ts := hskip ▸ skipTags_suffix ts
    have hrest : read.rest <:+ ts := suffix_of_skipTags hskip (background_suffix source t more)
    rw [hbody] at ih
    apply ih ?_ ?_ ?_ herrors
    · -- Without a fault it is not misplaced, and so it is taken.
      show P (if misplaced.isEmpty then { f with background := some read.value } else f)
      rw [hmisplaced]
      exact hbackground f t more hmore hk hread hf
    · exact fun g t more hts => hbackground g t more (hts.trans hrest)
    · exact fun g before t more hts => hchild g before t more (hts.trans hrest)
  | case3 f ts run t more hskip _ _ hk read _ g errors hbody ih
  | case4 f ts run t more hskip _ _ hk read _ g errors hbody ih =>
    rcases List.append_eq_nil_iff.1 hclean with ⟨hread, herrors⟩
    have hrest : read.rest <:+ ts := suffix_of_skipTags hskip (child_suffix source run.tags t more)
    rw [hbody] at ih
    apply ih ?_ ?_ ?_ herrors
    · exact hchild f ts t more (List.suffix_refl ts) hskip (by rw [hk]; rfl) hread hf
    · exact fun g t more hts => hbackground g t more (hts.trans hrest)
    · exact fun g before t more hts => hchild g before t more (hts.trans hrest)
  | case5 => simp at hclean
  | case6 => simp at hclean

/-! ## What a reading without a fault builds -/

theorem wellFormed_table {t : Token} (ht : t.kind = .tableRow) (hclean : (table t ts).errors = []) :
    (table t ts).value.WellFormed := by
  have hhead := head?_rows ht ts
  have hrows : (table t ts).value.rows = (rows (t :: ts)).1.map fun row => Table.splitCells row.text := rfl
  have hragged : raggedRows (Table.splitCells t.text).length (rows (t :: ts)).1 = [] := hclean
  have hwidth : (table t ts).value.width = (Table.splitCells t.text).length := by
    unfold Table.width Table.headers
    rw [hrows, List.headD_eq_head?_getD, List.head?_map, hhead]
    rfl
  constructor
  · intro hnil
    rw [hrows, List.map_eq_nil_iff] at hnil
    rw [hnil] at hhead
    simp at hhead
  · intro row hrow
    rw [hrows] at hrow
    rcases List.mem_map.1 hrow with ⟨x, hx, rfl⟩
    -- A row of another length would be a fault.
    have hx' := List.filterMap_eq_nil_iff.1 hragged x hx
    rw [hwidth]
    unfold raggedRow? at hx'
    by_contra hlength
    rw [if_neg hlength] at hx'
    simp at hx'
  · intro row hrow cell hcell
    rw [hrows] at hrow
    rcases List.mem_map.1 hrow with ⟨x, -, rfl⟩
    exact Table.trim_of_mem_splitCells hcell

theorem wellFormed_argument (hclean : (argument source ts).errors = []) :
    ((argument source ts).value.1 = none ∨ (argument source ts).value.2 = none) ∧
      ∀ t ∈ (argument source ts).value.1, t.WellFormed := by
  fun_cases argument source ts with
  | case1 => simp
  | case2 t ts ht =>
    unfold argument at hclean
    rw [if_pos ht] at hclean
    refine ⟨.inr rfl, fun data hdata => ?_⟩
    rw [← Option.some.inj hdata]
    exact wellFormed_table ht hclean
  | case3 => simp
  | case4 => simp

theorem wellFormed_step {k : StepKeyword} {t : Token} (hclean : (step source k t ts).errors = []) :
    (step source k t ts).value.WellFormed := by
  rcases List.append_eq_nil_iff.1 hclean with ⟨hblank, hargument⟩
  rcases wellFormed_argument hargument with ⟨hsingle, htable⟩
  have hnonempty : titleOf source t ≠ "" := by
    intro hempty
    rw [hempty] at hblank
    simp at hblank
  exact ⟨isTitle_textFrom _ _, hnonempty, hsingle, htable⟩

theorem wellFormed_steps (hclean : (steps source ts).errors = []) :
    ∀ x ∈ (steps source ts).value, x.WellFormed := by
  intro x hx
  rcases exists_of_mem_steps hx with ⟨k, t, more, -, rfl, herrors⟩
  exact wellFormed_step (herrors hclean)

theorem wellFormed_examples {tags : List String} {t : Token}
    (hclean : (examples source tags t ts).errors = []) :
    ∀ data ∈ (examples source tags t ts).value.table, data.WellFormed := by
  intro data hdata
  unfold examples at hclean hdata
  dsimp only at hclean hdata
  split at hdata
  · rename_i a more hmore
    rw [hmore] at hclean
    dsimp only at hclean
    split at hdata
    · rename_i ha
      rw [if_pos ha] at hclean
      rw [← Option.some.inj hdata]
      exact wellFormed_table ha hclean
    · simp at hdata
  · simp at hdata

theorem wellFormed_exampleBlocks {started : Bool} (hclean : (exampleBlocks source started ts).errors = []) :
    ∀ e ∈ (exampleBlocks source started ts).value, ∀ data ∈ e.table, data.WellFormed := by
  intro e he
  rcases exists_of_mem_exampleBlocks he hclean with ⟨before, t, more, -, -, -, rfl, herrors⟩
  exact wellFormed_examples herrors

/-- The check of an outline leaves none without examples, nor examples without a column. -/
theorem wellFormed_of_checkOutline {o : Outline} (hsteps : ∀ s ∈ o.steps, s.WellFormed)
    (htables : ∀ e ∈ o.examples, ∀ data ∈ e.table, data.WellFormed) (hcheck : checkOutline o = []) :
    o.WellFormed := by
  unfold checkOutline at hcheck
  by_cases hempty : o.examples.isEmpty
  · rw [if_pos hempty] at hcheck
    simp at hcheck
  · rw [if_neg hempty] at hcheck
    refine ⟨hsteps, fun hnil => hempty (by rw [hnil]; rfl), fun e he => ?_⟩
    have hfault := List.filterMap_eq_nil_iff.1 hcheck e he
    cases htable : e.table with
    | none => simp [htable] at hfault
    | some data =>
      have hmissing : o.missing e = [] := by
        by_contra hmissing
        simp [htable, hmissing] at hfault
      exact ⟨data, rfl, htables e he data htable,
        fun name => Outline.mem_headers_of_missing_eq_nil htable hmissing⟩

theorem wellFormed_child {tags : List String} {t : Token} (hclean : (child source tags t ts).errors = []) :
    (child source tags t ts).value.WellFormed := by
  unfold child at hclean ⊢
  dsimp only at hclean ⊢
  split
  · rename_i houtline
    rw [if_pos houtline] at hclean
    simp only [List.append_eq_nil_iff] at hclean
    rcases hclean with ⟨⟨hsteps, hblocks⟩, hcheck⟩
    exact wellFormed_of_checkOutline (wellFormed_steps hsteps) (wellFormed_exampleBlocks hblocks) hcheck
  · rename_i houtline
    rw [if_neg houtline] at hclean
    exact wellFormed_steps (List.append_eq_nil_iff.1 hclean).1

theorem wellFormed_body {f : Feature} (hf : f.WellFormed) (hclean : (body source f ts).2 = []) :
    (body source f ts).1.WellFormed := by
  refine holds_body hf ?_ ?_ hclean
  · intro g t more _ _ herrors hg
    refine ⟨fun b hb => ?_, hg.children⟩
    rw [← Option.some.inj hb]
    exact wellFormed_steps herrors
  · intro g before t more _ _ _ herrors hg
    refine ⟨hg.background, fun c hc => ?_⟩
    rcases List.mem_append.1 hc with hc | hc
    · exact hg.children c hc
    · rw [List.mem_singleton.1 hc]
      exact wellFormed_child herrors

end

end Reader

/-! ## The nodes of a document -/

section
variable {n : Node}

theorem Step.WellFormed.of_mem_walk {s : Step} (h : s.WellFormed) (hn : n ∈ s.walk fun _ => true) :
    n.WellFormed := by
  rcases List.mem_cons.1 hn with rfl | hn
  · exact h
  · rcases List.mem_append.1 hn with hn | hn
    · rcases List.mem_map.1 hn with ⟨t, ht, rfl⟩
      exact h.table t (Option.mem_toList.1 ht)
    · rcases List.mem_map.1 hn with ⟨d, -, rfl⟩
      trivial

theorem wellFormed_of_mem_steps {steps : List Step} (h : ∀ s ∈ steps, s.WellFormed)
    (hn : n ∈ steps.flatMap (Step.walk fun _ => true)) : n.WellFormed := by
  rcases List.mem_flatMap.1 hn with ⟨s, hs, hn⟩
  exact (h s hs).of_mem_walk hn

theorem Outline.WellFormed.of_mem_walk {o : Outline} (h : o.WellFormed) (hn : n ∈ o.walk fun _ => true) :
    n.WellFormed := by
  rcases List.mem_cons.1 hn with rfl | hn
  · exact h
  · rcases List.mem_append.1 hn with hn | hn
    · exact wellFormed_of_mem_steps h.steps hn
    · rcases List.mem_flatMap.1 hn with ⟨e, he, hn⟩
      obtain ⟨t, htable, ht, -⟩ := h.table e he
      rcases List.mem_cons.1 hn with rfl | hn
      · trivial
      · rw [if_pos rfl, htable] at hn
        rw [List.mem_singleton.1 hn]
        exact ht

theorem Child.WellFormed.of_mem_walk {c : Child} (h : c.WellFormed) (hn : n ∈ c.walk fun _ => true) :
    n.WellFormed := by
  cases c with
  | scenario s =>
    rcases List.mem_cons.1 hn with rfl | hn
    · trivial
    · exact wellFormed_of_mem_steps h hn
  | outline o => exact Outline.WellFormed.of_mem_walk h hn

theorem Feature.WellFormed.of_mem_nodes {f : Feature} (h : f.WellFormed) (hn : n ∈ f.nodes) :
    n.WellFormed := by
  rcases List.mem_cons.1 hn with rfl | hn
  · trivial
  · rcases List.mem_append.1 hn with hn | hn
    · rcases List.mem_flatMap.1 hn with ⟨b, hb, hn⟩
      rcases List.mem_cons.1 hn with rfl | hn
      · trivial
      · exact wellFormed_of_mem_steps (h.background b (Option.mem_toList.1 hb)) hn
    · rcases List.mem_flatMap.1 hn with ⟨c, hc, hn⟩
      exact (h.children c hc).of_mem_walk hn

end

/-- In a source without a fault every step has a text on one line and no more than one argument, all rows
of a table have as many trimmed cells as the first, and every outline has examples, each with a table that
has a column for every placeholder.  So an outline stands for exactly one scenario for each data row of its
examples, in order, with every column bound to the cell that the row has there. -/
theorem wellFormed_of_parse (source : String) (p : Parsed) (hparse : parse source = .ok p)
    (hclean : p.errors = []) :
    (∀ n ∈ p.feature.nodes, n.WellFormed) ∧
    ∀ o, Node.outline o ∈ p.feature.nodes →
      List.Forall₂ (fun (e, cells) s => ∃ t row, e.table = some t ∧ row.map Prod.fst = t.headers ∧
        row.map Prod.snd = cells ∧ s = o.instantiate e row) o.dataRows o.expand := by
  rcases clean_of_parse hparse hclean with ⟨t, more, -, -, -, hfeature, hbody⟩
  have hwell : p.feature.WellFormed := by
    rw [hfeature]
    exact Reader.wellFormed_body ⟨by simp, by simp⟩ hbody
  refine ⟨fun n => hwell.of_mem_nodes, fun o ho => ?_⟩
  have houtline : o.WellFormed := hwell.of_mem_nodes ho
  exact houtline.expand

set_option maxRecDepth 16000 in
/-- A table, a doc string, and two blocks of examples that have the same columns in different places. -/
theorem wellFormed_of_parse_of_two_blocks : ∃ p o,
    parse ("Feature: f\nBackground:\nGiven b\n| y |\nScenario: s\nGiven <x>\n\"\"\"\n<k>\n\"\"\"\n" ++
        "Examples:\n|x|k|\n|1||\nExamples:\n|k|x|\n|2|3|\n|4|5|\n") = .ok p ∧
      p.errors = [] ∧ p.feature.children = [.outline o] ∧ o.parameters = ["x", "k"] ∧
      o.dataRows.map Prod.snd = [["1", ""], ["2", "3"], ["4", "5"]] ∧
      (∀ n ∈ p.feature.nodes, n.WellFormed) ∧
      List.Forall₂ (fun (e, cells) s => ∃ t row, e.table = some t ∧ row.map Prod.fst = t.headers ∧
        row.map Prod.snd = cells ∧ s = o.instantiate e row) o.dataRows o.expand := by
  let o : Outline := ⟨"s", none, [],
    [⟨.given, "<x>", none, some ⟨"<k>", none, .doubleQuotes⟩, ⟨6, 1, 49⟩⟩],
    [⟨none, none, [], some ⟨[["x", "k"], ["1", ""]], ⟨11, 1, 81⟩⟩, ⟨10, 1, 71⟩⟩,
      ⟨none, none, [], some ⟨[["k", "x"], ["2", "3"], ["4", "5"]], ⟨14, 1, 102⟩⟩, ⟨13, 1, 92⟩⟩], ⟨5, 1, 37⟩⟩
  let b : Background := ⟨none, none,
    [⟨.given, "b", some ⟨[["y"]], ⟨4, 1, 31⟩⟩, none, ⟨3, 1, 23⟩⟩], ⟨2, 1, 11⟩⟩
  have hparse : parse ("Feature: f\nBackground:\nGiven b\n| y |\nScenario: s\nGiven <x>\n\"\"\"\n<k>\n\"\"\"\n" ++
        "Examples:\n|x|k|\n|1||\nExamples:\n|k|x|\n|2|3|\n|4|5|\n") =
      .ok ⟨⟨"f", none, [], some b, [.outline o], ⟨1, 1, 0⟩⟩, []⟩ := by
    rw [parse_eq]
    cbv
  have hparameters : o.parameters = ["x", "k"] := by cbv
  have hwell := wellFormed_of_parse _ _ hparse rfl
  have ho : Node.outline o ∈ (⟨"f", none, [], some b, [.outline o], ⟨1, 1, 0⟩⟩ : Feature).nodes := by
    simp [Feature.nodes, Feature.walk, Child.walk, Outline.walk]
  exact ⟨_, o, hparse, rfl, rfl, hparameters, rfl, hwell.1, hwell.2 o ho⟩

end Gherkin
