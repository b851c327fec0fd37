import Mathlib.Data.List.TakeWhile
import Gherkin.Proofs.Document.Readers

/-!
# Equations of the readers

What the loops of the readers do with the first token after the gaps, or after the tags, that they start
with.
-/

namespace Gherkin.Reader

variable {source : List Char} {ts more : List Token} {t : Token}

/-! ## What is left over -/

theorem suffix_of_skipGaps {rest : List Token} (h : skipGaps ts = t :: more) (hrest : rest <:+ more) :
    rest <:+ ts := by
  have hts : t :: more <:+ ts := h ▸ skipGaps_suffix ts
  exact (hrest.trans (List.suffix_cons t more)).trans hts

theorem suffix_of_skipTags {rest : List Token} (h : skipTags ts = t :: more) (hrest : rest <:+ more) :
    rest <:+ ts := by
  have hts : t :: more <:+ ts := h ▸ skipTags_suffix ts
  exact (hrest.trans (List.suffix_cons t more)).trans hts

/-! ## The first token that is left -/

theorem isGap_of_skipGaps (h : skipGaps ts = t :: more) : isGap t = false := by
  have hhead := List.head?_dropWhile_not isGap ts
  unfold skipGaps at h
  rw [h] at hhead
  simpa using hhead

theorem inTagRun_of_skipTags (h : skipTags ts = t :: more) : inTagRun t = false := by
  have hhead := List.head?_dropWhile_not inTagRun ts
  unfold skipTags at h
  rw [h] at hhead
  simpa using hhead

theorem isGap_of_skipTags (h : skipTags ts = t :: more) : isGap t = false :=
  (Bool.or_eq_false_iff.1 (inTagRun_of_skipTags h)).1

theorem skipTags_eq_nil_iff : skipTags ts = [] ↔ ∀ t ∈ ts, inTagRun t := List.dropWhile_eq_nil_iff

theorem skipTags_of_inTagRun {run : List Token} (hrun : ∀ x ∈ run, inTagRun x)
    (ht : inTagRun t = false) : skipTags (run ++ t :: ts) = t :: ts := by
  unfold skipTags
  rw [List.dropWhile_append_of_pos hrun, List.dropWhile_cons_of_neg (by simp [ht])]

theorem isStep_eq_false (h : ∀ k, t.kind = .step k → False) : t.kind.isStep = false := by
  cases hkind : t.kind with
  | step k => exact (h k hkind).elim
  | _ => rfl

/-! ## Tags -/

def frontTags (ts : List Token) : List Token := (ts.takeWhile inTagRun).filter fun t => t.kind = .tag

theorem skipTags_skipGaps (ts : List Token) : skipTags (skipGaps ts) = skipTags ts := by
  induction ts with
  | nil => rfl
  | cons t ts ih =>
    unfold skipTags skipGaps at ih ⊢
    by_cases hgap : isGap t = true
    · rw [List.dropWhile_cons_of_pos hgap, ih, List.dropWhile_cons_of_pos (by simp [inTagRun, hgap])]
    · rw [List.dropWhile_cons_of_neg hgap]

theorem frontTags_skipGaps (ts : List Token) : frontTags (skipGaps ts) = frontTags ts := by
  induction ts with
  | nil => rfl
  | cons t ts ih =>
    unfold frontTags skipGaps at ih ⊢
    by_cases hgap : isGap t = true
    · have htag : t.kind ≠ .tag := by
        intro htag
        simp [isGap, htag] at hgap
      rw [List.dropWhile_cons_of_pos hgap, ih, List.takeWhile_cons_of_pos (by simp [inTagRun, hgap]),
        List.filter_cons_of_neg (by simpa using htag)]
    · rw [List.dropWhile_cons_of_neg hgap]

theorem tags_of_kind_ne {t : Token} (hgap : isGap t = false) (htag : t.kind ≠ .tag) (more : List Token) :
    frontTags (t :: more) = [] ∧ skipTags (t :: more) = t :: more := by
  have hrun : ¬ inTagRun t = true := by simp [inTagRun, hgap, htag]
  refine ⟨?_, List.dropWhile_cons_of_neg hrun⟩
  unfold frontTags
  rw [List.takeWhile_cons_of_neg hrun]
  rfl

theorem tags_of_tag {t : Token} (htag : t.kind = .tag) (more : List Token) :
    frontTags (t :: more) = t :: frontTags more ∧ skipTags (t :: more) = skipTags more := by
  have hrun : inTagRun t = true := by simp [inTagRun, htag]
  refine ⟨?_, List.dropWhile_cons_of_pos hrun⟩
  unfold frontTags
  rw [List.takeWhile_cons_of_pos hrun, List.filter_cons_of_pos (by simpa using htag)]

/-! ## Descriptions -/

theorem descriptionLines_of_newline {newlines : Nat} (h : t.kind = .newline) :
    descriptionLines source newlines (t :: ts) = descriptionLines source (newlines + 1) ts := by
  rw [descriptionLines.eq_def]
  dsimp only
  rw [if_pos h]

theorem descriptionLines_of_isInline {newlines : Nat} (h : t.kind.isInline) :
    descriptionLines source newlines (t :: ts) =
      ((newlines, textFrom source t.location.offset) :: (descriptionLines source 0 (skipLine ts)).1,
        (descriptionLines source 0 (skipLine ts)).2) := by
  have hnewline : t.kind ≠ .newline := by
    intro hkind
    simp [hkind, TokenKind.isInline] at h
  have hcomment : t.kind ≠ .comment := by
    intro hkind
    simp [hkind, TokenKind.isInline] at h
  rw [descriptionLines.eq_def]
  dsimp only
  rw [if_neg hnewline, if_neg hcomment, if_pos h]

theorem descriptionLines_of_comment_newline {newlines : Nat} {n : Token} (h : t.kind = .comment)
    (hn : n.kind = .newline) :
    descriptionLines source newlines (t :: n :: ts) = descriptionLines source newlines ts := by
  rw [descriptionLines.eq_def]
  dsimp only
  rw [if_neg (by simp [h]), if_pos h, if_pos hn]

theorem descriptionLines_of_comment {newlines : Nat} (h : t.kind = .comment)
    (hts : ∀ n ∈ ts.head?, n.kind ≠ .newline) :
    descriptionLines source newlines (t :: ts) = descriptionLines source newlines ts := by
  rw [descriptionLines.eq_def]
  dsimp only
  rw [if_neg (by simp [h]), if_pos h]
  cases ts with
  | nil => rw [descriptionLines]
  | cons n ts =>
    dsimp only
    rw [if_neg (hts n rfl)]

theorem descriptionLines_of_stop {newlines : Nat} (hgap : isGap t = false)
    (hinline : t.kind.isInline = false) :
    descriptionLines source newlines (t :: ts) = ([], t :: ts) := by
  simp only [isGap, Bool.or_eq_false_iff, decide_eq_false_iff_not] at hgap
  rw [descriptionLines.eq_def]
  dsimp only
  rw [if_neg hgap.1, if_neg hgap.2, if_neg (by simp [hinline])]

/-! ## Rows -/

theorem rows_of_row (h : t.kind = .tableRow) :
    rows (t :: ts) = (t :: (rows (skipGaps ts)).1, (rows (skipGaps ts)).2) := by
  rw [rows, if_pos h]

theorem rows_of_stop (h : t.kind ≠ .tableRow) : rows (t :: ts) = ([], t :: ts) := by
  rw [rows, if_neg h]

theorem mem_rows : ∀ u ∈ (rows ts).1, u ∈ ts ∧ u.kind = .tableRow := by
  fun_induction rows ts with
  | case1 => simp
  | case2 t ts ht _ more rest hrows ih =>
    rw [hrows] at ih
    intro u hu
    rcases List.mem_cons.1 hu with rfl | hu
    · exact ⟨List.mem_cons_self, ht⟩
    · exact ⟨List.mem_cons_of_mem t ((skipGaps_suffix ts).subset (ih u hu).1), (ih u hu).2⟩
  | case3 => simp

/-! ## Steps -/

theorem steps_of_skipGaps_eq_nil (h : skipGaps ts = []) : steps source ts = ⟨[], [], []⟩ := by
  rw [steps.eq_def]
  split
  · rfl
  · rename_i u us hcons
    rw [h] at hcons
    simp at hcons

theorem steps_of_step {k : StepKeyword} (h : skipGaps ts = t :: more) (ht : t.kind = .step k) :
    steps source ts =
      let first := step source k t more
      let others := steps source first.rest
      ⟨first.value :: others.value, first.errors ++ others.errors, others.rest⟩ := by
  rw [steps.eq_def]
  split
  · rename_i hnil
    rw [h] at hnil
    simp at hnil
  · rename_i u us hcons
    rw [h] at hcons
    rcases List.cons.inj hcons with ⟨rfl, rfl⟩
    split
    · rename_i k' hk
      rw [ht] at hk
      rcases TokenKind.step.inj hk with rfl
      rfl
    · rename_i kind hkind
      exact absurd ht (hkind k)

theorem steps_of_stop (h : skipGaps ts = t :: more) (ht : t.kind.isStep = false)
    (hfault : nonStepFault? t.kind = none) : steps source ts = ⟨[], [], t :: more⟩ := by
  rw [steps.eq_def]
  split
  · rename_i hnil
    rw [h] at hnil
    simp at hnil
  · rename_i u us hcons
    rw [h] at hcons
    rcases List.cons.inj hcons with ⟨rfl, rfl⟩
    split
    · rename_i k hk
      rw [hk] at ht
      simp [TokenKind.isStep] at ht
    · rw [hfault]

theorem steps_of_fault {fault : OrderFault} (h : skipGaps ts = t :: more)
    (hfault : nonStepFault? t.kind = some fault) :
    steps source ts = ⟨[], [order fault t.location], synchronize more⟩ := by
  rw [steps.eq_def]
  split
  · rename_i hnil
    rw [h] at hnil
    simp at hnil
  · rename_i u us hcons
    rw [h] at hcons
    rcases List.cons.inj hcons with ⟨rfl, rfl⟩
    split
    · rename_i k hk
      simp [hk, nonStepFault?] at hfault
    · rw [hfault]

/-! ## Examples -/

theorem exampleBlocks_of_skipTags_eq_nil {started : Bool} (h : skipTags ts = []) :
    exampleBlocks source started ts = ⟨[], [], ts⟩ := by
  rw [exampleBlocks.eq_def]
  split
  · rfl
  · rename_i u us hcons
    rw [h] at hcons
    simp at hcons

theorem exampleBlocks_of_examples {started : Bool} (h : skipTags ts = t :: more)
    (ht : t.kind = .block .examples) :
    exampleBlocks source started ts =
      let first := examples source (tagRun ts).tags t more
      let others := exampleBlocks source true first.rest
      ⟨first.value :: others.value, first.errors ++ others.errors, others.rest⟩ := by
  rw [exampleBlocks.eq_def]
  split
  · rename_i hnil
    rw [h] at hnil
    simp at hnil
  · rename_i u us hcons
    rw [h] at hcons
    rcases List.cons.inj hcons with ⟨rfl, rfl⟩
    split
    · rfl
    · rename_i k hk
      rw [ht] at hk
      simp at hk
    · rename_i hexamples _
      exact absurd ht hexamples

theorem exampleBlocks_of_step (h : skipTags ts = t :: more) (ht : t.kind.isStep) :
    exampleBlocks source true ts =
      let others := exampleBlocks source true (synchronize more)
      ⟨others.value, order .stepAfterExamples t.location :: others.errors, others.rest⟩ := by
  rw [exampleBlocks.eq_def]
  split
  · rename_i hnil
    rw [h] at hnil
    simp at hnil
  · rename_i u us hcons
    rw [h] at hcons
    rcases List.cons.inj hcons with ⟨rfl, rfl⟩
    split
    · rename_i hk
      simp [hk, TokenKind.isStep] at ht
    · rfl
    · rename_i hstep
      cases hkind : t.kind with
      | step k => exact absurd hkind (hstep k)
      | _ => simp [hkind, TokenKind.isStep] at ht

theorem exampleBlocks_of_step_before (h : skipTags ts = t :: more) (ht : t.kind.isStep) :
    exampleBlocks source false ts = ⟨[], [], ts⟩ := by
  rw [exampleBlocks.eq_def]
  split
  · rfl
  · rename_i u us hcons
    rw [h] at hcons
    rcases List.cons.inj hcons with ⟨rfl, rfl⟩
    split
    · rename_i hk
      simp [hk, TokenKind.isStep] at ht
    · rfl
    · rfl

theorem exampleBlocks_of_stop {started : Bool} (h : skipTags ts = t :: more)
    (hstep : t.kind.isStep = false) (hexamples : t.kind ≠ .block .examples) :
    exampleBlocks source started ts = ⟨[], [], ts⟩ := by
  rw [exampleBlocks.eq_def]
  split
  · rfl
  · rename_i u us hcons
    rw [h] at hcons
    rcases List.cons.inj hcons with ⟨rfl, rfl⟩
    split
    · rename_i hk
      exact absurd hk hexamples
    · rename_i k hk
      rw [hk] at hstep
      simp [TokenKind.isStep] at hstep
    · rfl

/-! ## Features -/

theorem body_of_skipTags_eq_nil {f : Feature} (h : skipTags ts = []) :
    body source f ts = (f, (tagRun ts).stray) := by
  rw [body.eq_def]
  split
  · rfl
  · rename_i u us hcons
    rw [h] at hcons
    simp at hcons

theorem body_of_background {f : Feature} (h : skipTags ts = t :: more)
    (ht : t.kind = .block .background) :
    body source f ts =
      let read := background source t more
      let misplaced := ((backgroundFault? f).map (order · t.location)).toList
      let others := body source
        (if misplaced.isEmpty then { f with background := some read.value } else f) read.rest
      (others.1, ((tagRun ts).location.map (order .tagsOnBackground)).toList ++ misplaced ++
        read.errors ++ others.2) := by
  fun_cases body source f ts with
  | case1 run hskip => simp [h] at hskip
  | case2 run u us hskip _ _ hk read _ tagged misplaced g f' errors hbody =>
    rw [h] at hskip
    rcases List.cons.inj hskip with ⟨rfl, rfl⟩
    dsimp only
    rw [show body source _ _ = (f', errors) from hbody]
  | case3 run u us hskip _ _ hk | case4 run u us hskip _ _ hk =>
    rw [h] at hskip
    rw [← (List.cons.inj hskip).1, ht] at hk
    simp at hk
  | case5 u us hskip _ _ hk =>
    rw [h] at hskip
    rw [← (List.cons.inj hskip).1, ht] at hk
    simp at hk
  | case6 run u us hskip _ _ _ _ _ hk =>
    rw [h] at hskip
    rw [← (List.cons.inj hskip).1] at hk
    exact absurd ht hk

theorem body_of_child {f : Feature} (h : skipTags ts = t :: more)
    (ht : t.kind = .block .scenario ∨ t.kind = .block .scenarioOutline) :
    body source f ts =
      let read := child source (tagRun ts).tags t more
      let others := body source { f with children := f.children ++ [read.value] } read.rest
      (others.1, read.errors ++ others.2) := by
  fun_cases body source f ts with
  | case1 run hskip => simp [h] at hskip
  | case2 run u us hskip _ _ hk =>
    rw [h] at hskip
    rw [← (List.cons.inj hskip).1] at hk
    simp [hk] at ht
  | case3 run u us hskip _ _ hk read _ f' errors hbody
  | case4 run u us hskip _ _ hk read _ f' errors hbody =>
    rw [h] at hskip
    rcases List.cons.inj hskip with ⟨rfl, rfl⟩
    dsimp only
    rw [show body source _ _ = (f', errors) from hbody]
  | case5 u us hskip _ _ hk =>
    rw [h] at hskip
    rw [← (List.cons.inj hskip).1] at hk
    simp [hk] at ht
  | case6 run u us hskip _ _ _ _ _ _ hscenario houtline =>
    rw [h] at hskip
    rw [← (List.cons.inj hskip).1] at hscenario houtline
    rcases ht with ht | ht
    · exact absurd ht hscenario
    · exact absurd ht houtline

theorem body_of_examples {f : Feature} (h : skipTags ts = t :: more) (ht : t.kind = .block .examples) :
    body source f ts =
      let read := examples source [] t more
      let others := body source f read.rest
      (others.1, order .examplesOutsideOutline t.location :: read.errors ++ others.2) := by
  fun_cases body source f ts with
  | case1 run hskip => simp [h] at hskip
  | case2 run u us hskip _ _ hk | case3 run u us hskip _ _ hk | case4 run u us hskip _ _ hk =>
    rw [h] at hskip
    rw [← (List.cons.inj hskip).1, ht] at hk
    simp at hk
  | case5 u us hskip _ _ hk read _ f' errors hbody =>
    rw [h] at hskip
    rcases List.cons.inj hskip with ⟨rfl, rfl⟩
    dsimp only
    rw [show body source f _ = (f', errors) from hbody]
  | case6 run u us hskip _ _ _ _ _ _ _ _ hexamples =>
    rw [h] at hskip
    rw [← (List.cons.inj hskip).1] at hexamples
    exact absurd ht hexamples

theorem body_of_stray {f : Feature} (h : skipTags ts = t :: more)
    (ht : ∀ b, t.kind = .block b → b = .feature) :
    body source f ts =
      let others := body source f (synchronize more)
      (others.1, (tagRun ts).stray ++ order (strayFault t.kind) t.location :: others.2) := by
  fun_cases body source f ts with
  | case1 run hskip => simp [h] at hskip
  | case2 run u us hskip _ _ hk | case3 run u us hskip _ _ hk | case4 run u us hskip _ _ hk =>
    rw [h] at hskip
    rw [← (List.cons.inj hskip).1] at hk
    exact absurd (ht _ hk) (by simp)
  | case5 u us hskip _ _ hk =>
    rw [h] at hskip
    rw [← (List.cons.inj hskip).1] at hk
    exact absurd (ht _ hk) (by simp)
  | case6 run u us hskip _ _ f' errors hbody =>
    rw [h] at hskip
    rcases List.cons.inj hskip with ⟨rfl, rfl⟩
    dsimp only
    rw [show body source f _ = (f', errors) from hbody]

theorem header?_of_skipTags_eq_nil (h : skipTags ts = []) : header? ts = none := by
  rw [header?.eq_def]
  split
  · rfl
  · rename_i hcons
    rw [h] at hcons
    simp at hcons

theorem header?_of_feature (h : skipTags ts = t :: more) (ht : t.kind = .block .feature) :
    header? ts = some ((tagRun ts).tags, t, more) := by
  rw [header?.eq_def]
  split
  · rename_i hnil
    rw [h] at hnil
    simp at hnil
  · rename_i u us hcons
    rw [h] at hcons
    rcases List.cons.inj hcons with ⟨rfl, rfl⟩
    rw [if_pos ht]

theorem header?_of_ne_feature (h : skipTags ts = t :: more) (ht : t.kind ≠ .block .feature) :
    header? ts = header? more := by
  rw [header?.eq_def]
  split
  · rename_i hnil
    rw [h] at hnil
    simp at hnil
  · rename_i u us hcons
    rw [h] at hcons
    rcases List.cons.inj hcons with ⟨rfl, rfl⟩
    rw [if_neg ht]

end Gherkin.Reader
