import Gherkin.Proofs.Document.Equations
import Gherkin.Proofs.Tag.Distinct

/-!
# Parsers read what is in front of them

A parser at a position has a list of tokens in front of it, up to the end of the source.  Going past a token takes
the first of them, and going back gives them back.  What a method of the parser makes of its state is what the
reader of the same name makes of this list, so that a feature is what the readers make of the tokens before
the end of the source.
-/

namespace Gherkin.Parser

variable {p : Parser}

namespace State

def ahead (s : State p) : List Token := Reader.live (p.tokens.toList.drop s.position)

def ending (s : State p) : Token :=
  ((p.tokens.toList.drop s.position).find? fun t => t.kind = .eof).getD p.finish

theorem kind_peek (s : State p) : s.peek.kind = s.kind := rfl

theorem peek_eq (s : State p) : s.peek = (p.tokens.toList.drop s.position).head?.getD p.finish := by
  unfold peek
  rw [List.head?_drop, Array.getElem?_toList]

theorem peek_of_eof {s : State p} (h : s.kind = .eof) : s.peek = s.ending := by
  unfold kind at h
  unfold ending
  rw [peek_eq] at h ⊢
  cases hdrop : p.tokens.toList.drop s.position with
  | nil => rfl
  | cons t more =>
    rw [hdrop] at h
    rw [List.find?_cons_of_pos (by simpa using h)]
    rfl

theorem ahead_of_eof {s : State p} (h : s.kind = .eof) : s.ahead = [] := by
  unfold kind at h
  rw [peek_eq] at h
  unfold ahead
  cases hdrop : p.tokens.toList.drop s.position with
  | nil => rfl
  | cons t more =>
    rw [hdrop] at h
    exact List.takeWhile_cons_of_neg (by simpa using h)

theorem drop_of_ne_eof {s : State p} (h : s.kind ≠ .eof) :
    p.tokens.toList.drop s.position = s.peek :: p.tokens.toList.drop s.next.position := by
  have hposition : s.next.position = s.position + 1 := by
    unfold next
    split
    case isTrue => rfl
    case isFalse hstays =>
      have hlt := lt_next h
      unfold next at hlt
      rw [dif_neg hstays] at hlt
      exact absurd hlt (Nat.lt_irrefl _)
  rw [hposition, peek_eq, ← List.tail_drop]
  cases hdrop : p.tokens.toList.drop s.position with
  | nil =>
    unfold kind at h
    rw [peek_eq, hdrop] at h
    exact absurd p.ends h
  | cons t more => rfl

theorem ahead_of_ne_eof {s : State p} (h : s.kind ≠ .eof) : s.ahead = s.peek :: s.next.ahead := by
  unfold ahead
  rw [drop_of_ne_eof h]
  exact List.takeWhile_cons_of_pos (decide_eq_true h)

theorem ending_next (s : State p) : s.next.ending = s.ending := by
  by_cases h : s.kind = .eof
  · unfold next
    rw [dif_neg (by simp [h])]
  · unfold ending
    rw [drop_of_ne_eof h, List.find?_cons_of_neg (by simpa [kind] using h)]

theorem errors_next (s : State p) : s.next.errors = s.errors := by
  unfold next
  split <;> rfl

/-- From one state to another the tokens up to `rest` are taken, and these faults are recorded. -/
structure Reads (s : State p) (errors : List ParseError) (rest : List Token) (s' : State p) : Prop where
  ahead : s'.ahead = rest
  ending : s'.ending = s.ending
  errors : s'.errors = s.errors ++ errors

section
variable {s s' s'' : State p} {es es' : List ParseError} {rest rest' : List Token}

theorem reads_self (s : State p) : s.Reads [] s.ahead s := ⟨rfl, rfl, (List.append_nil _).symm⟩

theorem reads_recordAll (s : State p) (es : List ParseError) : s.Reads es s.ahead (s.recordAll es) :=
  ⟨rfl, rfl, rfl⟩

theorem reads_next (s : State p) : s.Reads [] s.next.ahead s.next :=
  ⟨rfl, s.ending_next, by rw [errors_next, List.append_nil]⟩

theorem Reads.trans (h : s.Reads es rest s') (h' : s'.Reads es' rest' s'') :
    s.Reads (es ++ es') rest' s'' where
  ahead := h'.ahead
  ending := h'.ending.trans h.ending
  errors := by rw [h'.errors, h.errors, List.append_assoc]

theorem Reads.silent (h : s.Reads [] rest s') (h' : s'.Reads es rest' s'') : s.Reads es rest' s'' := h.trans h'

/-- What is skipped behind what is read is skipped of what was left. -/
theorem Reads.skip {skip : List Token → List Token} (h : s.Reads es rest s')
    (h' : s'.Reads [] (skip s'.ahead) s'') : s.Reads es (skip rest) s'' := by
  have hboth := h.trans h'
  rwa [h.ahead, List.append_nil] at hboth

theorem Reads.recordMore (h : s.Reads es rest s') (es' : List ParseError) :
    s.Reads (es ++ es') rest (s'.recordAll es') := by
  have hboth := h.trans (s'.reads_recordAll es')
  rwa [h.ahead] at hboth

theorem Reads.recordAll (h : s.Reads [] rest s') (es : List ParseError) : s.Reads es rest (s'.recordAll es) :=
  h.recordMore es

/-- The first token in front is the one that the parser looks at. -/
theorem peek_of_ahead {t : Token} {more : List Token} (h : s.ahead = t :: more) :
    s.kind ≠ .eof ∧ s.peek = t ∧ s.next.ahead = more := by
  have hkind : s.kind ≠ .eof := by
    intro heof
    rw [ahead_of_eof heof] at h
    cases h
  rw [ahead_of_ne_eof hkind] at h
  exact ⟨hkind, List.cons.inj h⟩

theorem ahead_eq_nil_iff : s.ahead = [] ↔ s.kind = .eof := by
  constructor
  · intro h
    by_contra hkind
    rw [ahead_of_ne_eof hkind] at h
    cases h
  · exact ahead_of_eof

end

end State

/-- What holds of a loop that is left, and is kept by a pass that goes on, holds of what the loop comes to. -/
theorem Loop.run_spec {σ α : Type} {l : Loop p σ α} {R : σ → State p → α × State p → Prop}
    (hleave : ∀ x s a s', l.pass x s = .leave a s' → R x s (a, s'))
    (hgoOn : ∀ x s x' s' out, l.pass x s = .goOn x' s' → R x' s' out → R x s out) (x : σ) (s : State p) :
    R x s (l.run x s) := by
  fun_induction run l x s with
  | case1 x s a s' h => exact hleave x s a s' h
  | case2 x s x' s' h _ ih => exact hgoOn x s x' s' _ h ih

namespace State

/-! ## Skipping -/

theorem reads_skip {passes : Token → Bool} (s : State p) :
    s.Reads [] (s.ahead.dropWhile passes) ((skipLoop passes).run () s).2 := by
  apply Loop.run_spec (R := fun _ s out => s.Reads [] (s.ahead.dropWhile passes) out.2)
  · intro _ s _ s' hpass
    dsimp only [skipLoop] at hpass
    split at hpass
    · cases hpass
    · rename_i h
      cases hpass
      have hstays : s.ahead.dropWhile passes = s.ahead := by
        by_cases heof : s.kind = .eof
        · rw [ahead_of_eof heof, List.dropWhile_nil]
        · rw [ahead_of_ne_eof heof, List.dropWhile_cons_of_neg fun hpasses => h ⟨heof, hpasses⟩]
      rw [hstays]
      exact s.reads_self
  · intro _ s _ s' out hpass hreads
    dsimp only [skipLoop] at hpass
    split at hpass
    · rename_i h
      cases hpass
      rw [ahead_of_ne_eof h.1, List.dropWhile_cons_of_pos h.2]
      exact s.reads_next.silent hreads
    · cases hpass

theorem reads_skipGaps (s : State p) : s.Reads [] (Reader.skipGaps s.ahead) s.skipGaps := s.reads_skip

theorem reads_skipLine (s : State p) : s.Reads [] (Reader.skipLine s.ahead) s.skipLine := s.reads_skip

theorem reads_synchronize (s : State p) : s.Reads [] (Reader.synchronize s.ahead) s.synchronize := s.reads_skip

/-! ## Tags -/

/-- The token in front begins what is ahead, and the others follow it. -/
theorem ahead_eq_cons {s : State p} {kind : TokenKind} (h : s.kind = kind) (hkind : kind ≠ .eof) :
    s.ahead = s.peek :: s.next.ahead := ahead_of_ne_eof (by rwa [h])

theorem reads_tagLoop (run : Reader.TagRun) (s : State p) :
    (tagLoop.run run s).1 = (Reader.frontTags s.ahead).foldl Reader.TagRun.add run ∧
      s.Reads [] (Reader.skipTags s.ahead) (tagLoop.run run s).2 := by
  apply Loop.run_spec (R := fun run s out =>
    out.1 = (Reader.frontTags s.ahead).foldl Reader.TagRun.add run ∧ s.Reads [] (Reader.skipTags s.ahead) out.2)
  · intro run s _ s' hpass
    have hgaps := s.reads_skipGaps
    dsimp only [tagLoop] at hpass
    split at hpass
    · cases hpass
    · rename_i hkind
      cases hpass
      rw [← Reader.frontTags_skipGaps, ← Reader.skipTags_skipGaps]
      cases hskip : Reader.skipGaps s.ahead with
      | nil =>
        rw [hskip] at hgaps
        exact ⟨rfl, hgaps⟩
      | cons t more =>
        obtain ⟨-, hpeek, -⟩ := peek_of_ahead (hgaps.ahead.trans hskip)
        have htag : t.kind ≠ .tag := hpeek ▸ hkind
        obtain ⟨hfront, hrest⟩ := Reader.tags_of_kind_ne (Reader.isGap_of_skipGaps hskip) htag more
        rw [hfront, hrest, ← hskip]
        exact ⟨rfl, hgaps⟩
  · intro run s run' s' out hpass hout
    obtain ⟨htags, hreads⟩ := hout
    have hgaps := s.reads_skipGaps
    dsimp only [tagLoop] at hpass
    split at hpass
    · rename_i hkind
      cases hpass
      have hcons := ahead_eq_cons hkind (by simp)
      rw [hgaps.ahead] at hcons
      obtain ⟨hfront, hrest⟩ := Reader.tags_of_tag hkind s.skipGaps.next.ahead
      rw [← Reader.frontTags_skipGaps, ← Reader.skipTags_skipGaps, hcons, hfront, hrest]
      exact ⟨htags, hgaps.silent (s.skipGaps.reads_next.silent hreads)⟩
    · cases hpass

/-- Tags that are added one by one are kept by their first occurrences. -/
theorem foldl_add (before more : List Token) :
    more.foldl Reader.TagRun.add ⟨(before.map Token.text).eraseDups, before.head?.map Token.location⟩ =
      ⟨((before ++ more).map Token.text).eraseDups, (before ++ more).head?.map Token.location⟩ := by
  induction more generalizing before with
  | nil => rw [List.foldl_nil, List.append_nil]
  | cons t more ih =>
    have hadd : Reader.TagRun.add ⟨(before.map Token.text).eraseDups, before.head?.map Token.location⟩ t =
        ⟨((before ++ [t]).map Token.text).eraseDups, (before ++ [t]).head?.map Token.location⟩ := by
      unfold Reader.TagRun.add
      rw [List.map_append, List.map_singleton, eraseDups_concat]
      simp only [List.mem_eraseDups]
      cases before <;> rfl
    rw [List.foldl_cons, hadd, ih, List.append_assoc, List.singleton_append]

theorem tags_eq (s : State p) : s.tags.1 = Reader.tagRun s.ahead :=
  (reads_tagLoop _ s).1.trans (foldl_add [] (Reader.frontTags s.ahead))

theorem reads_tags (s : State p) : s.Reads [] (Reader.skipTags s.ahead) s.tags.2 := (reads_tagLoop _ s).2

/-! ## Descriptions -/

def withLines (lines : List String) (more : List (Nat × String)) : List String :=
  more.foldl (fun lines (newlines, line) =>
    lines ++ (if lines.isEmpty then [] else List.replicate (newlines - 1) "") ++ [line]) lines

theorem withLines_cons (lines : List String) (newlines : Nat) (line : String) (more : List (Nat × String)) :
    withLines lines ((newlines, line) :: more) =
      withLines (lines ++ (if lines.isEmpty then [] else List.replicate (newlines - 1) "") ++ [line]) more :=
  rfl

theorem withLines_eq {lines : List String} (h : lines ≠ []) (more : List (Nat × String)) :
    withLines lines more = lines ++ more.flatMap fun (newlines, line) =>
      List.replicate (newlines - 1) "" ++ [line] := by
  induction more generalizing lines with
  | nil => exact (List.append_nil _).symm
  | cons found more ih =>
    obtain ⟨newlines, line⟩ := found
    rw [withLines_cons, ih (by simp), if_neg (by simpa using h)]
    simp

theorem joinDescription_eq (more : List (Nat × String)) :
    Reader.joinDescription more = Reader.joinLines (withLines [] more) := by
  cases more with
  | nil => rfl
  | cons found more =>
    obtain ⟨newlines, line⟩ := found
    have hlines : withLines [] ((newlines, line) :: more) = line :: more.flatMap fun (newlines, line) =>
        List.replicate (newlines - 1) "" ++ [line] := by
      rw [withLines_cons]
      exact withLines_eq (by simp) more
    rw [hlines]
    rfl

/-- What is left of a line behind its first token. -/
theorem reads_skipLine_of_ne {s : State p} (heof : s.kind ≠ .eof) (hnewline : s.kind ≠ .newline) :
    s.Reads [] (Reader.skipLine s.next.ahead) s.skipLine := by
  have hreads := s.reads_skipLine
  rw [ahead_of_ne_eof heof] at hreads
  unfold Reader.skipLine at hreads
  rwa [List.dropWhile_cons_of_pos (by simpa [kind] using hnewline)] at hreads

def Describes (read : List String × Nat) (s : State p) (out : Option String × State p) : Prop :=
  out.1 = Reader.joinLines (withLines read.1 (Reader.descriptionLines p.source read.2 s.ahead).1) ∧
    s.Reads [] (Reader.descriptionLines p.source read.2 s.ahead).2 out.2

theorem describes_of_isInline {lines : List String} {newlines : Nat} {s : State p}
    {out : Option String × State p} (h : s.kind.isInline)
    (hout : Describes (lines ++ (if lines.isEmpty then [] else List.replicate (newlines - 1) "") ++
      [Reader.textFrom p.source s.peek.location.offset], 0) s.skipLine out) :
    Describes (lines, newlines) s out := by
  have heof : s.kind ≠ .eof := by
    intro hkind
    rw [hkind] at h
    cases h
  have hnewline : s.kind ≠ .newline := by
    intro hkind
    rw [hkind] at h
    cases h
  have hskip := reads_skipLine_of_ne heof hnewline
  obtain ⟨hlines, hreads⟩ := hout
  unfold Describes
  rw [ahead_of_ne_eof heof, Reader.descriptionLines_of_isInline h, withLines_cons]
  rw [hskip.ahead] at hlines hreads
  exact ⟨hlines, hskip.silent hreads⟩

theorem describes_of_stop {lines : List String} {newlines : Nat} {s : State p}
    (hgap : s.kind ≠ .newline ∧ s.kind ≠ .comment) (hinline : s.kind.isInline = false) :
    Describes (lines, newlines) s (Reader.joinLines lines, s) := by
  have hself := s.reads_self
  unfold Describes
  by_cases heof : s.kind = .eof
  · rw [ahead_of_eof heof] at hself ⊢
    rw [Reader.descriptionLines]
    exact ⟨rfl, hself⟩
  · have hstop : Reader.isGap s.peek = false := by
      unfold Reader.isGap
      rw [show s.peek.kind = s.kind from rfl]
      simp [hgap]
    rw [ahead_of_ne_eof heof] at hself ⊢
    rw [Reader.descriptionLines_of_stop hstop hinline]
    exact ⟨rfl, hself⟩

theorem describes_descriptionLoop (read : List String × Nat) (s : State p) :
    Describes read s (descriptionLoop.run read s) := by
  apply Loop.run_spec
  · intro (lines, newlines) s _ s' hpass
    dsimp only [descriptionLoop] at hpass
    split at hpass <;> cases hpass
    case h_6 hnewline hcomment htext hquoted hplaceholder =>
      apply describes_of_stop ⟨hnewline, hcomment⟩
      unfold TokenKind.isInline
      split
      case h_1 h => exact (htext h).elim
      case h_2 h => exact (hquoted h).elim
      case h_3 h => exact (hplaceholder h).elim
      case h_4 => rfl
  · intro (lines, newlines) s _ s' out hpass hout
    dsimp only [descriptionLoop] at hpass
    split at hpass
    case h_1 hkind =>
      cases hpass
      unfold Describes
      rw [ahead_eq_cons hkind (by simp), Reader.descriptionLines_of_newline hkind]
      exact ⟨hout.1, s.reads_next.silent hout.2⟩
    case h_2 hkind =>
      obtain ⟨hlines, hreads⟩ := hout
      unfold Describes
      rw [ahead_eq_cons hkind (by simp)]
      -- A comment takes the line end behind it along, if there is one.
      by_cases hnewline : s.next.kind = .newline
      · rw [if_pos hnewline] at hpass
        cases hpass
        rw [ahead_eq_cons hnewline (by simp), Reader.descriptionLines_of_comment_newline hkind hnewline]
        exact ⟨hlines, s.reads_next.silent (s.next.reads_next.silent hreads)⟩
      · rw [if_neg hnewline] at hpass
        cases hpass
        have hhead : ∀ t ∈ s.next.ahead.head?, t.kind ≠ .newline := by
          intro t ht
          obtain ⟨more, hmore⟩ := List.head?_eq_some_iff.1 ht
          obtain ⟨-, hpeek, -⟩ := peek_of_ahead hmore
          exact hpeek ▸ hnewline
        rw [Reader.descriptionLines_of_comment hkind hhead]
        exact ⟨hlines, s.reads_next.silent hreads⟩
    case h_3 hkind | h_4 hkind | h_5 hkind =>
      cases hpass
      exact describes_of_isInline (by rw [hkind]; rfl) hout
    case h_6 => cases hpass

theorem description_eq (s : State p) : s.description.1 = Reader.description p.source s.ahead :=
  (describes_descriptionLoop ([], 0) s).1.trans (joinDescription_eq _).symm

theorem reads_description (s : State p) :
    s.Reads [] (Reader.skipDescription p.source s.ahead) s.description.2 :=
  (describes_descriptionLoop ([], 0) s).2

/-! ## Tables and doc strings -/

structure Yields {α : Type} (s : State p) (read : Reading α) (out : α × State p) : Prop where
  value : out.1 = read.value
  reads : s.Reads read.errors read.rest out.2

/-- What is read behind a token in front, with nothing recorded. -/
theorem Yields.behind {α : Type} {s s' : State p} {rest : List Token} {read : Reading α} {out : α × State p}
    (h : s.Reads [] rest s') (hout : s'.Yields read out) : s.Yields read out :=
  ⟨hout.value, h.silent hout.reads⟩

def width (rows : List (List String)) : Nat := (rows.head?.map List.length).getD 0

def Tabulates (rows : List (List String)) (s : State p) (out : List (List String) × State p) : Prop :=
  let found := (Reader.rows s.ahead).1
  let all := rows ++ found.map fun row => Table.splitCells row.text
  out.1 = all ∧ s.Reads (Reader.raggedRows (width all) found) (Reader.rows s.ahead).2 out.2

theorem raggedRows_cons (n : Nat) (t : Token) (ts : List Token) :
    Reader.raggedRows n (t :: ts) = (Reader.raggedRow? n t).toList ++ Reader.raggedRows n ts := by
  unfold Reader.raggedRows
  rw [List.filterMap_cons]
  cases Reader.raggedRow? n t <;> rfl

theorem reads_row (s : State p) (es : List ParseError) :
    s.Reads es (Reader.skipGaps s.next.ahead) (s.next.recordAll es).skipGaps :=
  (s.reads_next.recordAll es).skip (s.next.recordAll es).reads_skipGaps

theorem tabulates_rowLoop (rows : List (List String)) (s : State p) :
    Tabulates rows s (rowLoop.run rows s) := by
  apply Loop.run_spec
  · intro rows s _ s' hpass
    dsimp only [rowLoop, advance] at hpass
    split at hpass
    · cases hpass
    · rename_i hkind
      cases hpass
      have hself := s.reads_self
      unfold Tabulates
      by_cases heof : s.kind = .eof
      · rw [ahead_of_eof heof] at hself ⊢
        rw [Reader.rows]
        exact ⟨(List.append_nil _).symm, hself⟩
      · rw [ahead_of_ne_eof heof] at hself ⊢
        rw [Reader.rows_of_stop hkind]
        exact ⟨(List.append_nil _).symm, hself⟩
  · intro rows s rows' s' out hpass hout
    dsimp only [rowLoop, advance] at hpass
    split at hpass
    case isFalse => cases hpass
    case isTrue hkind =>
      cases hpass
      obtain ⟨hrows, hreads⟩ := hout
      rw [(s.reads_row _).ahead] at hrows hreads
      have hrow := (s.reads_row _).trans hreads
      unfold Tabulates
      rw [ahead_eq_cons hkind (by simp), Reader.rows_of_row hkind]
      dsimp only
      rw [List.map_cons]
      -- The width of the rows with one more behind them is the width of all.
      rw [List.append_assoc, List.singleton_append] at hrows hrow
      have hwidth (cells : List String) (more : List (List String)) :
          (rows.head?.map List.length).getD cells.length = width (rows ++ cells :: more) := by
        cases rows <;> rfl
      rw [hwidth, ← raggedRows_cons] at hrow
      exact ⟨hrows, hrow⟩

theorem yields_table {s : State p} (h : s.kind = .tableRow) :
    s.Yields (Reader.table s.peek s.next.ahead) s.table := by
  obtain ⟨hrows, hreads⟩ := tabulates_rowLoop [] s
  have hwidth : width (([] : List (List String)) ++ (Reader.rows s.ahead).1.map fun row =>
      Table.splitCells row.text) = (Table.splitCells s.peek.text).length := by
    rw [ahead_eq_cons h (by simp), Reader.rows_of_row h, List.nil_append, List.map_cons, width,
      List.head?_cons, Option.map_some, Option.getD_some]
  rw [hwidth] at hreads
  unfold table Reader.table
  rw [← ahead_eq_cons h (by simp)]
  exact ⟨congrArg (Table.mk · s.peek.location) hrows, hreads⟩

theorem yields_argument (s : State p) : s.Yields (Reader.argument p.source s.ahead) s.argument := by
  unfold argument
  split
  case h_1 hkind =>
    have hrow : s.peek.kind = .tableRow := hkind
    obtain ⟨htable, hreads⟩ := yields_table hkind
    rw [ahead_eq_cons hkind (by simp), Reader.argument, if_pos hrow]
    exact ⟨congrArg (fun table => (some table, none)) htable, hreads⟩
  case h_2 hkind =>
    have hdocString : s.peek.kind = .docString := hkind
    rw [ahead_eq_cons hkind (by simp), Reader.argument, if_neg (by simp [hdocString]), if_pos hdocString]
    exact ⟨rfl, s.reads_next⟩
  case h_3 hrow hdocString =>
    have hself := s.reads_self
    by_cases heof : s.kind = .eof
    · rw [ahead_of_eof heof] at hself ⊢
      exact ⟨rfl, hself⟩
    · rw [ahead_of_ne_eof heof] at hself ⊢
      rw [Reader.argument, if_neg (show s.peek.kind ≠ .tableRow from hrow),
        if_neg (show s.peek.kind ≠ .docString from hdocString)]
      exact ⟨rfl, hself⟩

/-! ## Steps -/

theorem yields_step (s : State p) (k : StepKeyword) :
    s.Yields (Reader.step p.source k s.peek s.next.ahead) (s.step k) := by
  let blank := if (Reader.titleOf p.source s.peek).isEmpty then
    [Reader.order (.stepWithoutText k) s.peek.location] else []
  have hline := (s.reads_next.skip s.next.reads_skipLine).recordAll blank
  have hgaps := hline.skip (s.next.skipLine.recordAll blank).reads_skipGaps
  obtain ⟨hvalue, hreads⟩ := yields_argument (s.next.skipLine.recordAll blank).skipGaps
  rw [hgaps.ahead] at hvalue hreads
  have hstep : s.step k = (⟨k, Reader.titleOf p.source s.peek,
      (s.next.skipLine.recordAll blank).skipGaps.argument.1.1,
      (s.next.skipLine.recordAll blank).skipGaps.argument.1.2, s.peek.location⟩,
      (s.next.skipLine.recordAll blank).skipGaps.argument.2) := by
    unfold step
    dsimp only [advance, title]
  rw [hstep, hvalue]
  unfold Reader.step
  exact ⟨rfl, hgaps.trans hreads⟩

theorem next_recordAll (s : State p) (es : List ParseError) : (s.recordAll es).next = s.next.recordAll es := by
  have hkind : (s.recordAll es).kind = s.kind := rfl
  have hposition : (s.recordAll es).position = s.position := rfl
  unfold next
  by_cases h : s.position < p.tokens.size ∧ s.kind ≠ .eof
  · rw [dif_pos h, dif_pos (by rwa [hkind, hposition])]
    rfl
  · rw [dif_neg h, dif_neg (by rwa [hkind, hposition])]

/-- Going on after a fault at the token in front. -/
theorem reads_fault (s : State p) (es : List ParseError) :
    s.Reads es (Reader.synchronize s.next.ahead) (s.recordAll es).next.synchronize := by
  have hnext := s.reads_next.recordAll es
  rw [← next_recordAll] at hnext
  exact hnext.skip (s.recordAll es).next.reads_synchronize

theorem synchronize_eq_next {s : State p} (heof : s.kind ≠ .eof) (hanchor : Reader.isAnchor s.peek = false) :
    s.synchronize = s.next.synchronize := by
  have hpass : (skipLoop (p := p) fun t => !Reader.isAnchor t).pass () s = .goOn () s.next :=
    if_pos ⟨heof, by simp [hanchor]⟩
  unfold synchronize
  rw [Loop.run_of_goOn _ hpass]

def Steps (found : List Step) (s : State p) (out : List Step × State p) : Prop :=
  out.1 = found ++ (Reader.steps p.source s.ahead).value ∧
    s.Reads (Reader.steps p.source s.ahead).errors (Reader.steps p.source s.ahead).rest out.2

theorem steps_of_fault {s : State p} {found : List Step} {fault : OrderFault}
    (h : Reader.nonStepFault? s.skipGaps.kind = some fault) :
    Steps found s (found, (s.skipGaps.record (Reader.order fault s.skipGaps.peek.location)).next.synchronize) := by
  have heof : s.skipGaps.kind ≠ .eof := by
    intro heof
    rw [heof] at h
    cases h
  have hgaps := s.reads_skipGaps
  have hcons := ahead_of_ne_eof heof
  rw [hgaps.ahead] at hcons
  unfold Steps
  rw [Reader.steps_of_fault hcons h]
  exact ⟨(List.append_nil _).symm, hgaps.silent (s.skipGaps.reads_fault _)⟩

theorem steps_of_stop {s : State p} {found : List Step} (hstep : s.skipGaps.kind.isStep = false)
    (hfault : Reader.nonStepFault? s.skipGaps.kind = none) : Steps found s (found, s.skipGaps) := by
  have hgaps := s.reads_skipGaps
  unfold Steps
  by_cases heof : s.skipGaps.kind = .eof
  · have hnil := ahead_of_eof heof
    rw [hgaps.ahead] at hnil
    rw [hnil] at hgaps
    rw [Reader.steps_of_skipGaps_eq_nil hnil]
    exact ⟨(List.append_nil _).symm, hgaps⟩
  · have hcons := ahead_of_ne_eof heof
    rw [hgaps.ahead] at hcons
    rw [hcons] at hgaps
    rw [Reader.steps_of_stop hcons hstep hfault]
    exact ⟨(List.append_nil _).symm, hgaps⟩

theorem steps_stepLoop (found : List Step) (s : State p) : Steps found s (stepLoop.run found s) := by
  apply Loop.run_spec
  · intro found s _ s' hpass
    dsimp only [stepLoop] at hpass
    -- A token that may open a block is none of those that steps do not read.
    have hanchor {fault : OrderFault} (hfault : Reader.nonStepFault? s.skipGaps.kind = some fault) :
        Steps found s (found, (s.skipGaps.record (Reader.order fault s.skipGaps.peek.location)).synchronize) := by
      have heof : s.skipGaps.kind ≠ .eof := by
        intro heof
        rw [heof] at hfault
        cases hfault
      have hpeek : Reader.isAnchor s.skipGaps.peek = false := by
        unfold Reader.isAnchor
        rw [show s.skipGaps.peek.kind = s.skipGaps.kind from rfl]
        cases hkind : s.skipGaps.kind <;> rw [hkind] at hfault <;> first | rfl | cases hfault
      rw [synchronize_eq_next (s := s.skipGaps.record _) heof hpeek]
      exact steps_of_fault hfault
    split at hpass <;> cases hpass
    case h_2 hkind => exact hanchor (by rw [hkind]; rfl)
    case h_3 hkind => exact steps_of_fault (by rw [hkind]; rfl)
    case h_4 hkind => exact hanchor (by rw [hkind]; rfl)
    case h_5 hkind => exact hanchor (by rw [hkind]; rfl)
    case h_6 hkind => exact hanchor (by rw [hkind]; rfl)
    case h_7 hstep hrow hdocString htext hquoted hplaceholder =>
      apply steps_of_stop (Reader.isStep_eq_false (t := s.skipGaps.peek) hstep)
      unfold Reader.nonStepFault?
      split
      case h_1 h => exact (hrow h).elim
      case h_2 h => exact (hdocString h).elim
      case h_3 h => exact (htext h).elim
      case h_4 h => exact (hquoted h).elim
      case h_5 h => exact (hplaceholder h).elim
      case h_6 => rfl
  · intro found s _ s' out hpass hout
    obtain ⟨hsteps, hreads⟩ := hout
    dsimp only [stepLoop] at hpass
    split at hpass
    case h_1 k hkind =>
      cases hpass
      have hgaps := s.reads_skipGaps
      have hcons := ahead_eq_cons hkind (by simp)
      rw [hgaps.ahead] at hcons
      obtain ⟨hvalue, hfirst⟩ := s.skipGaps.yields_step k
      rw [hfirst.ahead] at hsteps hreads
      unfold Steps
      rw [Reader.steps_of_step hcons hkind]
      refine ⟨?_, hgaps.silent (hfirst.trans hreads)⟩
      rw [hsteps, hvalue, List.append_assoc, List.singleton_append]
    all_goals cases hpass

theorem yields_steps (s : State p) : s.Yields (Reader.steps p.source s.ahead) s.steps := by
  obtain ⟨hvalue, hreads⟩ := steps_stepLoop [] s
  exact ⟨hvalue, hreads⟩

/-! ## Examples -/

/-- What is left of a line and the description below it. -/
theorem reads_header (s : State p) :
    s.Reads [] (Reader.skipHeader p.source s.ahead) s.skipLine.description.2 :=
  s.reads_skipLine.skip s.skipLine.reads_description

theorem description_header (s : State p) :
    s.skipLine.description.1 = Reader.headerDescription p.source s.ahead := by
  rw [description_eq, s.reads_skipLine.ahead]
  rfl

theorem yields_examples (s : State p) (tags : List String) :
    s.Yields (Reader.examples p.source tags s.peek s.next.ahead) (s.examples tags) := by
  have hgaps := (s.reads_next.silent s.next.reads_header).skip s.next.skipLine.description.2.reads_skipGaps
  have hdescription := s.next.description_header
  unfold examples Reader.examples
  dsimp only [advance]
  rw [hdescription]
  by_cases hrow : s.next.skipLine.description.2.skipGaps.kind = .tableRow
  · have hcons := ahead_eq_cons hrow (by simp)
    obtain ⟨htable, hreads⟩ := yields_table hrow
    rw [hgaps.ahead] at hcons
    rw [if_pos hrow, hcons]
    dsimp only
    rw [kind_peek, if_pos hrow, htable]
    exact ⟨rfl, hgaps.silent hreads⟩
  · rw [if_neg hrow]
    by_cases heof : s.next.skipLine.description.2.skipGaps.kind = .eof
    · have hnil := ahead_of_eof heof
      rw [hgaps.ahead] at hnil
      rw [hnil] at hgaps ⊢
      exact ⟨rfl, hgaps⟩
    · have hcons := ahead_of_ne_eof heof
      rw [hgaps.ahead] at hcons
      rw [hcons] at hgaps ⊢
      dsimp only
      rw [kind_peek, if_neg hrow]
      exact ⟨rfl, hgaps⟩

def Blocks (started : Bool) (found : List Examples) (s : State p) (out : List Examples × State p) : Prop :=
  out.1 = found ++ (Reader.exampleBlocks p.source started s.ahead).value ∧
    s.Reads (Reader.exampleBlocks p.source started s.ahead).errors
      (Reader.exampleBlocks p.source started s.ahead).rest out.2

/-- Going back to before the tags. -/
theorem reads_backTo (s : State p) : s.Reads [] s.ahead (s.tags.2.backTo s) :=
  ⟨rfl, rfl, s.reads_tags.errors⟩

/-- The token behind the tags in front. -/
theorem skipTags_eq_cons {s : State p} (h : s.tags.2.kind ≠ .eof) :
    Reader.skipTags s.ahead = s.tags.2.peek :: s.tags.2.next.ahead := by
  rw [← s.reads_tags.ahead]
  exact ahead_of_ne_eof h

theorem isStep_of_kind {s : State p} {k : StepKeyword} (h : s.kind = .step k) : s.peek.kind.isStep := by
  rw [kind_peek, h]
  rfl

theorem blocks_exampleLoop (found : List Examples) (s : State p) :
    Blocks (!found.isEmpty) found s (exampleLoop.run found s) := by
  -- The list reader is told whether a block has been found by `started`, the loop by its own list.
  apply Loop.run_spec (R := fun found s out => Blocks (!found.isEmpty) found s out)
  · intro found s _ s' hpass
    have hback := s.reads_backTo
    dsimp only [exampleLoop] at hpass
    split at hpass
    case h_1 => cases hpass
    case h_2 k hkind =>
      -- A step ends the loop as long as no block has been found; afterwards it is a fault.
      cases found with
      | cons block found => cases hpass
      | nil =>
        cases hpass
        show Blocks false [] s _
        unfold Blocks
        rw [Reader.exampleBlocks_of_step_before (skipTags_eq_cons (by simp [hkind])) (isStep_of_kind hkind)]
        exact ⟨rfl, hback⟩
    case h_3 hexamples hstep =>
      cases hpass
      unfold Blocks
      by_cases heof : s.tags.2.kind = .eof
      · have hnil : Reader.skipTags s.ahead = [] := by
          rw [← s.reads_tags.ahead, ahead_of_eof heof]
        rw [Reader.exampleBlocks_of_skipTags_eq_nil hnil]
        exact ⟨(List.append_nil _).symm, hback⟩
      · rw [Reader.exampleBlocks_of_stop (skipTags_eq_cons heof)
          (Reader.isStep_eq_false (t := s.tags.2.peek) hstep) hexamples]
        exact ⟨(List.append_nil _).symm, hback⟩
  · intro found s _ s' out hpass hout
    obtain ⟨hblocks, hreads⟩ := hout
    have htags := s.reads_tags
    dsimp only [exampleLoop] at hpass
    split at hpass
    case h_1 hkind =>
      cases hpass
      obtain ⟨hvalue, hfirst⟩ := s.tags.2.yields_examples s.tags.1.tags
      have hstarted : (!(found ++ [(s.tags.2.examples s.tags.1.tags).1]).isEmpty) = true := by simp
      rw [hfirst.ahead, hstarted] at hblocks hreads
      unfold Blocks
      rw [Reader.exampleBlocks_of_examples (skipTags_eq_cons (by simp [hkind])) hkind, ← tags_eq]
      refine ⟨?_, htags.silent (hfirst.trans hreads)⟩
      rw [hblocks, hvalue, List.append_assoc, List.singleton_append]
    case h_2 k hkind =>
      cases found with
      | nil => cases hpass
      | cons block found =>
        cases hpass
        have hfault := s.tags.2.reads_fault [Reader.order .stepAfterExamples s.tags.2.peek.location]
        rw [show (s.tags.2.record _).next.synchronize.ahead = _ from hfault.ahead] at hblocks hreads
        show Blocks true (block :: found) s out
        unfold Blocks
        rw [Reader.exampleBlocks_of_step (skipTags_eq_cons (by simp [hkind])) (isStep_of_kind hkind)]
        exact ⟨hblocks, htags.silent (hfault.trans hreads)⟩
    case h_3 => cases hpass

theorem yields_exampleBlocks (s : State p) :
    s.Yields (Reader.exampleBlocks p.source false s.ahead) s.exampleBlocks := by
  obtain ⟨hvalue, hreads⟩ := blocks_exampleLoop [] s
  exact ⟨hvalue, hreads⟩

/-! ## Scenarios and backgrounds -/

theorem reads_part (s : State p) :
    s.skipLine.description.2.steps.1 = (Reader.steps p.source (Reader.skipHeader p.source s.ahead)).value ∧
      s.Reads (Reader.steps p.source (Reader.skipHeader p.source s.ahead)).errors
        (Reader.steps p.source (Reader.skipHeader p.source s.ahead)).rest s.skipLine.description.2.steps.2 := by
  have hheader := s.reads_header
  obtain ⟨hsteps, hbody⟩ := s.skipLine.description.2.yields_steps
  rw [hheader.ahead] at hsteps hbody
  exact ⟨hsteps, hheader.silent hbody⟩

theorem yields_child (s : State p) (tags : List String) :
    s.Yields (Reader.child p.source tags s.peek s.next.ahead) (s.child tags) := by
  obtain ⟨hsteps, hbody⟩ := s.next.reads_part
  obtain ⟨hblocks, hrest⟩ := s.next.skipLine.description.2.steps.2.yields_exampleBlocks
  rw [hbody.ahead] at hblocks hrest
  have hall := s.reads_next.silent (hbody.trans hrest)
  unfold child Reader.child
  dsimp only [advance, title]
  rw [s.next.description_header, hsteps, hblocks]
  split
  case isTrue => exact ⟨rfl, hall.recordMore _⟩
  case isFalse => exact ⟨rfl, hall⟩

/-- A background is put into a feature where it may stand there. -/
theorem background_eq (s : State p) (f : Feature) :
    let read := Reader.background p.source s.peek s.next.ahead
    let misplaced := ((Reader.backgroundFault? f).map (Reader.order · s.peek.location)).toList
    (s.background f).1 = (if misplaced.isEmpty then { f with background := some read.value } else f) ∧
      s.Reads (misplaced ++ read.errors) read.rest (s.background f).2 := by
  have hpart (es : List ParseError) := (s.next.recordAll es).reads_part
  have hrecord := s.reads_next.recordAll
    ((Reader.backgroundFault? f).map (Reader.order · s.peek.location)).toList
  have hdescription (es : List ParseError) := (s.next.recordAll es).description_header
  refine ⟨?_, hrecord.trans (hpart _).2⟩
  unfold background Reader.background
  dsimp only [advance]
  rw [hdescription, (hpart _).1]
  cases Reader.backgroundFault? f <;> rfl

/-! ## Features -/

def Body (f : Feature) (s : State p) (out : Feature × State p) : Prop :=
  out.1 = (Reader.body p.source f s.ahead).1 ∧ s.Reads (Reader.body p.source f s.ahead).2 [] out.2

theorem body_bodyLoop (f : Feature) (s : State p) : Body f s (bodyLoop.run f s) := by
  -- The loop ends at the end of the source; a turn reads one entry, whose reader is known to agree.
  apply Loop.run_spec
  · intro f s _ s' hpass
    dsimp only [bodyLoop] at hpass
    split at hpass <;> cases hpass
    case h_1 hkind =>
      have htags := s.reads_tags.recordAll s.tags.1.stray
      have hnil : Reader.skipTags s.ahead = [] := by
        rw [← s.reads_tags.ahead, ahead_of_eof hkind]
      rw [hnil] at htags
      unfold Body
      rw [Reader.body_of_skipTags_eq_nil hnil, ← tags_eq]
      exact ⟨rfl, htags⟩
  · intro f s _ s' out hpass hout
    obtain ⟨hbody, hreads⟩ := hout
    have htags := s.reads_tags
    dsimp only [bodyLoop] at hpass
    unfold Body
    split at hpass
    case h_1 => cases hpass
    case h_2 hkind =>
      cases hpass
      have htagged := htags.recordAll (s.tags.1.location.map (Reader.order .tagsOnBackground)).toList
      obtain ⟨hvalue, hread⟩ := background_eq
        (s.tags.2.recordAll (s.tags.1.location.map (Reader.order .tagsOnBackground)).toList) f
      rw [next_recordAll] at hvalue hread
      rw [hvalue, hread.ahead] at hbody hreads
      rw [Reader.body_of_background (skipTags_eq_cons (by simp [hkind])) hkind, ← tags_eq]
      have hall := htagged.trans (hread.trans hreads)
      rw [← List.append_assoc, ← List.append_assoc] at hall
      exact ⟨hbody, hall⟩
    case h_3 hkind | h_4 hkind =>
      cases hpass
      obtain ⟨hvalue, hread⟩ := s.tags.2.yields_child s.tags.1.tags
      rw [hvalue, hread.ahead] at hbody hreads
      rw [Reader.body_of_child (skipTags_eq_cons (by simp [hkind])) (by simp [kind_peek, hkind]), ← tags_eq]
      exact ⟨hbody, htags.silent (hread.trans hreads)⟩
    case h_5 hkind =>
      cases hpass
      have hfault := htags.recordAll [Reader.order .examplesOutsideOutline s.tags.2.peek.location]
      obtain ⟨-, hread⟩ := yields_examples
        (s.tags.2.recordAll [Reader.order .examplesOutsideOutline s.tags.2.peek.location]) []
      rw [next_recordAll] at hread
      rw [show ((s.tags.2.record _).examples []).2.ahead = _ from hread.ahead] at hbody hreads
      rw [Reader.body_of_examples (skipTags_eq_cons (by simp [hkind])) hkind]
      exact ⟨hbody, hfault.trans (hread.trans hreads)⟩
    case h_6 heof hbackground hscenario houtline hexamples =>
      cases hpass
      have hfault := s.tags.2.reads_fault
        (s.tags.1.stray ++ [Reader.order (Reader.strayFault s.tags.2.kind) s.tags.2.peek.location])
      -- Of the blocks only a second feature is left, which is an entry like any other stray one.
      have hblock (b : Block) (hb : s.tags.2.peek.kind = .block b) : b = .feature := by
        cases b with
        | feature => rfl
        | background => exact (hbackground hb).elim
        | scenario => exact (hscenario hb).elim
        | scenarioOutline => exact (houtline hb).elim
        | examples => exact (hexamples hb).elim
      rw [hfault.ahead] at hbody hreads
      rw [Reader.body_of_stray (skipTags_eq_cons heof) hblock, ← tags_eq]
      refine ⟨hbody, ?_⟩
      have hall := htags.silent (hfault.trans hreads)
      rwa [List.append_assoc, List.singleton_append] at hall

def Header (reported : Bool) (s : State p) (out : Option (List String × Token) × State p) : Prop :=
  ∃ rest, Reader.header? s.ahead = out.1.map (fun found => (found.1, found.2, rest)) ∧
    s.Reads (if reported then [] else Reader.headerFault s.ending.location s.ahead) rest out.2

theorem header_headerLoop (reported : Bool) (s : State p) : Header reported s (headerLoop.run reported s) := by
  apply Loop.run_spec
  · intro reported s _ s' hpass
    have htags := s.reads_tags
    dsimp only [headerLoop] at hpass
    unfold Header Reader.headerFault
    split at hpass
    case h_1 hkind =>
      cases hpass
      have hskip := skipTags_eq_cons (s := s) (by simp [hkind])
      have hfound := Reader.header?_of_feature hskip hkind
      rw [← tags_eq] at hfound
      refine ⟨_, hfound, ?_⟩
      rw [hskip]
      dsimp only
      rw [if_pos (show s.tags.2.peek.kind = _ from hkind), ite_self]
      exact htags.silent s.tags.2.reads_next
    case h_2 hkind =>
      cases hpass
      have hnil : Reader.skipTags s.ahead = [] := by
        rw [← s.reads_tags.ahead, ahead_of_eof hkind]
      refine ⟨[], Reader.header?_of_skipTags_eq_nil hnil, ?_⟩
      rw [hnil] at htags ⊢
      cases reported with
      | true => exact htags
      | false =>
        rw [peek_of_eof hkind, htags.ending]
        exact htags.recordAll _
    case h_3 => cases hpass
  · intro reported s _ s' out hpass hout
    obtain ⟨rest, hheader, hreads⟩ := hout
    have htags := s.reads_tags
    dsimp only [headerLoop] at hpass
    unfold Header Reader.headerFault
    split at hpass
    case h_1 => cases hpass
    case h_2 => cases hpass
    case h_3 hfeature heof =>
      cases hpass
      have hskip := skipTags_eq_cons (s := s) heof
      rw [Reader.header?_of_ne_feature hskip hfeature, hskip]
      dsimp only
      rw [if_neg (show s.tags.2.peek.kind ≠ _ from hfeature)]
      cases reported with
      | true => exact ⟨rest, hheader, htags.silent (s.tags.2.reads_next.silent hreads)⟩
      | false =>
        -- Once a fault is reported, nothing that comes later adds to it.
        let fault := Reader.order (.missingFeature (some s.tags.2.kind)) s.tags.2.peek.location
        have hnext := s.tags.2.reads_next.recordAll [fault]
        rw [← next_recordAll] at hnext
        have hahead : (s.tags.2.recordAll [fault]).next.ahead = s.tags.2.next.ahead := hnext.ahead
        rw [show (if false = true then _ else s.tags.2.record _ : State p) = s.tags.2.recordAll [fault] from rfl,
          hahead] at hheader
        exact ⟨rest, hheader, htags.silent (hnext.trans hreads)⟩

end State

theorem start_ofTokens (source : String) (ts : List Token) :
    (ofTokens source ts).start.ahead = Reader.live ts ∧
      (ofTokens source ts).start.ending.location = Reader.finish source.toList ts := by
  refine ⟨rfl, ?_⟩
  show ((ts.find? fun t => t.kind = .eof).getD (ofTokens source ts).finish).location = _
  unfold Reader.finish
  cases ts.find? fun t => decide (t.kind = .eof) with
  | some t => rfl
  | none =>
    show (closing source.toList ts.getLast?).location = _
    cases ts.getLast? <;> rfl

end Parser

/-- A parser reads what the readers take from the front of the tokens before the end of the source. -/
theorem Parsed.ofTokens_eq (source : String) (ts : List Token) : ofTokens source ts = ofLive source ts := by
  obtain ⟨hahead, hending⟩ := Parser.start_ofTokens source ts
  obtain ⟨rest, hheader, hreads⟩ := Parser.State.header_headerLoop false (Parser.ofTokens source ts).start
  rw [hahead] at hheader hreads
  rw [hending] at hreads
  unfold ofTokens Parser.parse ofLive
  dsimp only
  rw [hheader]
  generalize Parser.headerLoop.run false (Parser.ofTokens source ts).start = out at hreads
  obtain ⟨found, s⟩ := out
  cases found with
  | none => exact congrArg Except.error hreads.errors
  | some found =>
    obtain ⟨tags, t⟩ := found
    have hdescription := s.description_header
    have hskip := s.reads_header
    rw [hreads.ahead] at hdescription hskip
    dsimp only [Option.map_some, Parser.State.title]
    rw [hdescription]
    -- The parts are read behind the header, with what is reported of it before what is reported of them.
    obtain ⟨hbody, hparts⟩ := Parser.State.body_bodyLoop
      { name := Reader.titleOf source.toList t, description := Reader.headerDescription source.toList rest,
        tags, background := none, children := [], location := t.location } s.skipLine.description.2
    rw [hskip.ahead] at hbody hparts
    have hall := (hreads.trans (hskip.silent hparts)).errors
    exact congrArg Except.ok (congr (congrArg Parsed.mk hbody) hall)

end Gherkin
