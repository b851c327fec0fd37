import Mathlib.Data.List.TakeWhile
import Gherkin.Proofs.Document.Equations

/-!
# Where reading stops

No reader goes past a token at which reading goes on after a fault, unless it reads that token.  So
tokens before such a token are read as if nothing followed them, provided that the last of their lines
is whole.
-/

namespace Gherkin

def Reading.before {α : Type} (r : Reading α) (tail : List Token) : Reading α :=
  { r with rest := r.rest ++ tail }

namespace Reader

/-- Where more tokens follow, they start with an anchor, and whatever stands on a line has the line
end behind it. -/
structure Stops (ts tail : List Token) : Prop where
  anchor : ∀ t ∈ tail.head?, isAnchor t
  closed : tail ≠ [] → ∀ t us, t :: us <:+ ts → isGap t = false → ∃ n ∈ us, n.kind = .newline

theorem Stops.of_suffix {ts rest tail : List Token} (h : Stops ts tail) (hrest : rest <:+ ts) :
    Stops rest tail :=
  ⟨h.anchor, fun htail t us hus => h.closed htail t us (hus.trans hrest)⟩

theorem Stops.tail {t : Token} {ts tail : List Token} (h : Stops (t :: ts) tail) : Stops ts tail :=
  h.of_suffix (List.suffix_cons t ts)

/-! ## Skips -/

/-- An anchor is none of the tokens that are skipped or read as part of something else. -/
theorem isGap_of_isAnchor {t : Token} (h : isAnchor t = true) : isGap t = false := by
  unfold isAnchor at h
  unfold isGap
  split at h <;> simp_all

theorem kind_of_isAnchor {t : Token} (h : isAnchor t = true) :
    t.kind.isInline = false ∧ t.kind.isStep = false ∧ nonStepFault? t.kind = none ∧ t.kind ≠ .tableRow ∧
      t.kind ≠ .docString := by
  unfold isAnchor at h
  split at h <;> simp_all [TokenKind.isInline, TokenKind.isStep, nonStepFault?]

section
variable {ts tail : List Token} {t : Token}

theorem dropWhile_append_of_stops {p : Token → Bool} (h : ∀ t ∈ tail.head?, p t = false) :
    (ts ++ tail).dropWhile p = ts.dropWhile p ++ tail := by
  rw [List.dropWhile_append]
  by_cases hnil : (ts.dropWhile p).isEmpty
  · rw [if_pos hnil, List.isEmpty_iff.1 hnil, List.nil_append]
    cases tail with
    | nil => rfl
    | cons u tail => exact List.dropWhile_cons_of_neg (by simp [h u rfl])
  · rw [if_neg hnil]

theorem skipGaps_append (h : Stops ts tail) : skipGaps (ts ++ tail) = skipGaps ts ++ tail :=
  dropWhile_append_of_stops fun t ht => isGap_of_isAnchor (h.anchor t ht)

theorem synchronize_append (h : Stops ts tail) : synchronize (ts ++ tail) = synchronize ts ++ tail :=
  dropWhile_append_of_stops fun t ht => by simp [h.anchor t ht]

/-- The rest of the line of a token. -/
theorem skipLine_append (h : Stops (t :: ts) tail) (ht : isGap t = false) :
    skipLine (ts ++ tail) = skipLine ts ++ tail := by
  by_cases htail : tail = []
  · rw [htail, List.append_nil, List.append_nil]
  -- The line end behind the token stops the skip before the tail.
  obtain ⟨n, hn, hnewline⟩ := h.closed htail t ts (List.suffix_refl _) ht
  unfold skipLine
  rw [List.dropWhile_append, if_neg]
  intro hnil
  have hall := List.dropWhile_eq_nil_iff.1 (List.isEmpty_iff.1 hnil) n hn
  simp [hnewline] at hall

/-! ## Readers -/

variable {source : List Char}

theorem descriptionLines_append (newlines : Nat) (h : Stops ts tail) :
    descriptionLines source newlines (ts ++ tail) =
      ((descriptionLines source newlines ts).1, (descriptionLines source newlines ts).2 ++ tail) := by
  have hstop : ∀ newlines, descriptionLines source newlines tail = ([], tail) := by
    intro newlines
    cases htail : tail with
    | nil => rw [descriptionLines]
    | cons u more =>
      have hu : isAnchor u := h.anchor u (by simp [htail])
      exact descriptionLines_of_stop (isGap_of_isAnchor hu) (kind_of_isAnchor hu).1
  -- What is left after a line is a suffix, so it stops as well; the tail is met only at the end.
  fun_induction descriptionLines source newlines ts with
  | case1 => exact hstop _
  | case2 newlines t ts ht ih =>
    rw [List.cons_append, descriptionLines_of_newline ht]
    exact ih h.tail
  | case3 newlines t _ ht n ts hn ih =>
    rw [List.cons_append, List.cons_append, descriptionLines_of_comment_newline ht hn]
    exact ih h.tail.tail
  | case4 newlines t _ ht n ts hn ih =>
    rw [List.cons_append, descriptionLines_of_comment ht (by simpa using hn)]
    exact ih h.tail
  | case5 newlines t _ ht =>
    rw [List.singleton_append, descriptionLines_of_comment ht, hstop]
    · rfl
    · intro u hu hkind
      have hgap := isGap_of_isAnchor (h.anchor u hu)
      simp [isGap, hkind] at hgap
  | case6 newlines t ts hnewline hcomment hinline _ more rest hlines ih =>
    have hgap : isGap t = false := by simp [isGap, hnewline, hcomment]
    rw [List.cons_append, descriptionLines_of_isInline hinline, skipLine_append h hgap,
      ih (h.tail.of_suffix (skipLine_suffix ts)), hlines]
  | case7 newlines t ts hnewline hcomment hinline =>
    exact descriptionLines_of_stop (by simp [isGap, hnewline, hcomment]) (by simpa using hinline)

theorem headerDescription_append (h : Stops (t :: ts) tail) (ht : isGap t = false) :
    headerDescription source (ts ++ tail) = headerDescription source ts := by
  unfold headerDescription description
  rw [skipLine_append h ht, descriptionLines_append 0 (h.tail.of_suffix (skipLine_suffix ts))]

theorem skipHeader_append (h : Stops (t :: ts) tail) (ht : isGap t = false) :
    skipHeader source (ts ++ tail) = skipHeader source ts ++ tail := by
  unfold skipHeader skipDescription
  rw [skipLine_append h ht, descriptionLines_append 0 (h.tail.of_suffix (skipLine_suffix ts))]

theorem rows_append (h : Stops ts tail) : rows (ts ++ tail) = ((rows ts).1, (rows ts).2 ++ tail) := by
  fun_induction rows ts with
  | case1 =>
    rw [List.nil_append]
    cases htail : tail with
    | nil => rw [rows]
    | cons u more => rw [rows, if_neg (kind_of_isAnchor (h.anchor u (by simp [htail]))).2.2.2.1]
  | case2 t ts ht _ more rest hrows ih =>
    have hrest := ih (h.tail.of_suffix (skipGaps_suffix ts))
    rw [List.cons_append, rows, if_pos ht, skipGaps_append h.tail, hrest, hrows]
  | case3 t ts ht => rw [List.cons_append, rows, if_neg ht]

theorem table_append (h : Stops (t :: ts) tail) : table t (ts ++ tail) = (table t ts).before tail := by
  unfold table
  rw [← List.cons_append, rows_append h]
  rfl

theorem argument_append (h : Stops ts tail) :
    argument source (ts ++ tail) = (argument source ts).before tail := by
  cases ts with
  | nil =>
    rw [List.nil_append]
    cases htail : tail with
    | nil => rfl
    | cons u more =>
      obtain ⟨-, -, -, hrow, hdoc⟩ := kind_of_isAnchor (h.anchor u (by simp [htail]))
      unfold argument
      dsimp only
      rw [if_neg hrow, if_neg hdoc]
      rfl
  | cons t ts =>
    rw [List.cons_append, argument, argument, table_append h]
    by_cases hrow : t.kind = .tableRow
    · rw [if_pos hrow, if_pos hrow]
      rfl
    · rw [if_neg hrow, if_neg hrow]
      by_cases hdoc : t.kind = .docString
      · rw [if_pos hdoc, if_pos hdoc]
        rfl
      · rw [if_neg hdoc, if_neg hdoc]
        rfl

theorem step_append {k : StepKeyword} (h : Stops (t :: ts) tail) (ht : t.kind = .step k) :
    step source k t (ts ++ tail) = (step source k t ts).before tail := by
  have hline := h.tail.of_suffix (skipLine_suffix ts)
  unfold step
  rw [skipLine_append h (by simp [isGap, ht]), skipGaps_append hline,
    argument_append (hline.of_suffix (skipGaps_suffix _))]
  rfl

theorem steps_append (h : Stops ts tail) :
    steps source (ts ++ tail) = (steps source ts).before tail := by
  fun_induction steps source ts with
  | case1 ts hgaps =>
    have hskip : skipGaps (ts ++ tail) = tail := by rw [skipGaps_append h, hgaps, List.nil_append]
    -- An anchor in front of the tail is neither a step nor a fault, so the steps end before it.
    cases htail : tail with
    | nil =>
      rw [htail] at hskip
      rw [steps_of_skipGaps_eq_nil hskip]
      rfl
    | cons u more =>
      obtain ⟨-, hstep, hfault, -, -⟩ := kind_of_isAnchor (h.anchor u (by simp [htail]))
      rw [htail] at hskip
      rw [steps_of_stop hskip hstep hfault]
      rfl
  | case2 ts t more hgaps k hk first _ others ih =>
    have hmore : Stops (t :: more) tail := h.of_suffix (hgaps ▸ skipGaps_suffix ts)
    have hskip : skipGaps (ts ++ tail) = t :: (more ++ tail) := by rw [skipGaps_append h, hgaps]; rfl
    have hothers := ih (hmore.tail.of_suffix (step_suffix source k t more))
    rw [steps_of_step hskip hk, step_append hmore hk]
    dsimp only [Reading.before]
    rw [hothers]
    rfl
  | case3 ts t more hgaps _ fault hfault =>
    have hmore : Stops (t :: more) tail := h.of_suffix (hgaps ▸ skipGaps_suffix ts)
    have hskip : skipGaps (ts ++ tail) = t :: (more ++ tail) := by rw [skipGaps_append h, hgaps]; rfl
    rw [steps_of_fault hskip hfault, synchronize_append hmore.tail]
    rfl
  | case4 ts t more hgaps hk hfault =>
    have hskip : skipGaps (ts ++ tail) = t :: (more ++ tail) := by rw [skipGaps_append h, hgaps]; rfl
    rw [steps_of_stop hskip (isStep_eq_false hk) hfault]
    rfl

theorem examples_append {tags : List String} (h : Stops (t :: ts) tail) (ht : isGap t = false) :
    examples source tags t (ts ++ tail) = (examples source tags t ts).before tail := by
  have hskip := h.tail.of_suffix (skipHeader_suffix source ts)
  have hgaps := hskip.of_suffix (skipGaps_suffix _)
  unfold examples
  rw [headerDescription_append h ht, skipHeader_append h ht, skipGaps_append hskip]
  cases hrest : skipGaps (skipHeader source ts) with
  | nil =>
    cases htail : tail with
    | nil => rfl
    | cons u more =>
      have hrow := (kind_of_isAnchor (h.anchor u (by simp [htail]))).2.2.2.1
      dsimp only [List.nil_append]
      rw [if_neg hrow]
      rfl
  | cons a more =>
    rw [hrest] at hgaps
    dsimp only [List.cons_append]
    rw [table_append hgaps]
    by_cases hrow : a.kind = .tableRow
    · rw [if_pos hrow, if_pos hrow]
      rfl
    · rw [if_neg hrow, if_neg hrow]
      rfl

theorem background_append (h : Stops (t :: ts) tail) (ht : isGap t = false) :
    background source t (ts ++ tail) = (background source t ts).before tail := by
  unfold background
  rw [headerDescription_append h ht, skipHeader_append h ht,
    steps_append (h.tail.of_suffix (skipHeader_suffix source ts))]
  rfl

end

/-! ## After tags and a token -/

section
variable {ts more : List Token} {t : Token}

theorem skipTags_append_of_cons (h : skipTags ts = t :: more) (tail : List Token) :
    skipTags (ts ++ tail) = t :: (more ++ tail) := by
  unfold skipTags at h ⊢
  rw [List.dropWhile_append, h]
  rfl

theorem tagRun_append_of_cons (h : skipTags ts = t :: more) (tail : List Token) :
    tagRun (ts ++ tail) = tagRun ts := by
  have hcut : ts.takeWhile inTagRun ++ t :: more = ts := by
    rw [← h]
    exact List.takeWhile_append_dropWhile
  have htake : (ts ++ tail).takeWhile inTagRun = ts.takeWhile inTagRun := by
    rw [List.takeWhile_append, if_neg]
    intro hlength
    have hall := congrArg List.length hcut
    rw [List.length_append, List.length_cons] at hall
    omega
  unfold tagRun
  rw [htake]

/-- The header of a feature is found whatever follows it. -/
theorem header?_append {tags : List String} (h : header? ts = some (tags, t, more)) (tail : List Token) :
    header? (ts ++ tail) = some (tags, t, more ++ tail) := by
  fun_induction header? ts with
  | case1 => simp at h
  | case2 ts u rest hskip shorter hu =>
    simp only [Option.some.injEq, Prod.mk.injEq] at h
    obtain ⟨rfl, rfl, rfl⟩ := h
    rw [header?_of_feature (skipTags_append_of_cons hskip tail) hu, tagRun_append_of_cons hskip]
  | case3 ts u rest hskip shorter hu ih =>
    rw [header?_of_ne_feature (skipTags_append_of_cons hskip tail) hu]
    exact ih h

end

/-! ## Before a child -/

section
variable {ts tail : List Token} {t : Token} {source : List Char}

def BeforeChild (tail : List Token) : Prop := ∀ t ∈ tail.head?, t.kind = .block .scenario ∨
  t.kind = .block .scenarioOutline

theorem skipTags_append (htail : BeforeChild tail) : skipTags (ts ++ tail) = skipTags ts ++ tail := by
  apply dropWhile_append_of_stops
  intro t ht
  rcases htail t ht with hk | hk <;> simp [inTagRun, isGap, hk]

theorem tagRun_append (htail : BeforeChild tail) : tagRun (ts ++ tail) = tagRun ts := by
  have htake : (ts ++ tail).takeWhile inTagRun = ts.takeWhile inTagRun := by
    rw [List.takeWhile_append]
    by_cases hall : (ts.takeWhile inTagRun).length = ts.length
    · rw [if_pos hall]
      have hnone : tail.takeWhile inTagRun = [] := by
        cases tail with
        | nil => rfl
        | cons u tail =>
          apply List.takeWhile_cons_of_neg
          rcases htail u rfl with hk | hk <;> simp [inTagRun, isGap, hk]
      rw [hnone, List.append_nil]
      exact ((List.takeWhile_prefix inTagRun).eq_of_length hall).symm
    · rw [if_neg hall]
  unfold tagRun
  rw [htake]

theorem exampleBlocks_append {started : Bool} (h : Stops ts tail) (htail : BeforeChild tail) :
    exampleBlocks source started (ts ++ tail) = (exampleBlocks source started ts).before tail := by
  fun_induction exampleBlocks source started ts with
  | case1 started ts hskip =>
    -- Where the tokens end the blocks end, and so they do at the header of a child.
    have hskip' : skipTags (ts ++ tail) = tail := by rw [skipTags_append htail, hskip, List.nil_append]
    cases hmore : tail with
    | nil =>
      rw [hmore] at hskip'
      rw [exampleBlocks_of_skipTags_eq_nil hskip']
      rfl
    | cons u more =>
      have hu := htail u (by simp [hmore])
      rw [hmore] at hskip'
      rw [exampleBlocks_of_stop hskip']
      · rfl
      · rcases hu with hk | hk <;> rw [hk] <;> rfl
      · rcases hu with hk | hk <;> simp [hk]
  | case2 started ts t more hskip _ hk first _ others ih =>
    have hmore : Stops (t :: more) tail := h.of_suffix (hskip ▸ skipTags_suffix ts)
    have hskip' := skipTags_append_of_cons hskip tail
    have hothers := ih (hmore.tail.of_suffix (examples_suffix source _ t more))
    rw [exampleBlocks_of_examples hskip' hk, tagRun_append htail,
      examples_append hmore (by simp [isGap, hk])]
    dsimp only [Reading.before]
    rw [hothers]
    rfl
  | case3 ts t more hskip _ k hk _ others ih =>
    have hmore : Stops (t :: more) tail := h.of_suffix (hskip ▸ skipTags_suffix ts)
    have hskip' := skipTags_append_of_cons hskip tail
    have hothers := ih (hmore.tail.of_suffix (synchronize_suffix more))
    rw [exampleBlocks_of_step hskip' (by rw [hk]; rfl), synchronize_append hmore.tail]
    dsimp only
    rw [hothers]
    rfl
  | case4 started ts t more hskip _ k hk hstarted =>
    have hskip' := skipTags_append_of_cons hskip tail
    obtain rfl : started = false := by simpa using hstarted
    rw [exampleBlocks_of_step_before hskip' (by rw [hk]; rfl)]
    rfl
  | case5 started ts t more hskip _ hexamples hstep =>
    have hskip' := skipTags_append_of_cons hskip tail
    rw [exampleBlocks_of_stop hskip' (isStep_eq_false hstep) hexamples]
    rfl

/-- A child is read as if the tail did not follow, provided that its examples are. -/
theorem child_append_of_blocks {tags : List String} (h : Stops (t :: ts) tail) (ht : isGap t = false)
    (hblocks : exampleBlocks source false ((steps source (skipHeader source ts)).rest ++ tail) =
      (exampleBlocks source false (steps source (skipHeader source ts)).rest).before tail) :
    child source tags t (ts ++ tail) = (child source tags t ts).before tail := by
  unfold child
  rw [headerDescription_append h ht, skipHeader_append h ht,
    steps_append (h.tail.of_suffix (skipHeader_suffix source ts))]
  dsimp only [Reading.before] at hblocks ⊢
  rw [hblocks]
  -- Whether it is an outline does not depend on what is left over.
  by_cases houtline : (t.kind = .block .scenarioOutline ||
      !(exampleBlocks source false (steps source (skipHeader source ts)).rest).value.isEmpty) = true
  · simp only [if_pos houtline]
  · simp only [if_neg houtline]

theorem child_append {tags : List String} (h : Stops (t :: ts) tail) (ht : isGap t = false)
    (htail : BeforeChild tail) :
    child source tags t (ts ++ tail) = (child source tags t ts).before tail := by
  have hskip := h.tail.of_suffix (skipHeader_suffix source ts)
  exact child_append_of_blocks h ht (exampleBlocks_append (hskip.of_suffix (steps_suffix source _)) htail)

end

end Reader

end Gherkin
