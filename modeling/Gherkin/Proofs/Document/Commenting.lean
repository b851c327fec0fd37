import Gherkin.Proofs.Document.Parts
import Gherkin.Proofs.Document.Skipping

/-!
# Comment lines among tokens

A comment and the line end that follows it, put in where a line starts, leave no trace in what is read.  Every
reader takes the same from the tokens with the comment line and from those without, and what it leaves over
are again tokens with the comment line and without, or the same tokens.
-/

namespace Gherkin

/-- The second tokens are the first, perhaps with one comment line put in behind a line end.  A line end is
the same wherever it stops. -/
inductive Commented : List Token → List Token → Prop
  | same (ts : List Token) : Commented ts ts
  | here {n n' c m : Token} {ts : List Token} : n.kind = .newline → n'.kind = .newline →
      c.kind = .comment → m.kind = .newline → Commented (n :: ts) (n' :: c :: m :: ts)
  | cons (t : Token) {ts us : List Token} : Commented ts us → Commented (t :: ts) (t :: us)

namespace Commented

variable {t : Token} {ts us : List Token}

theorem eq_nil (h : Commented [] us) : us = [] := by
  cases h
  rfl

theorem exists_cons (h : Commented (t :: ts) us) (ht : t.kind ≠ .newline) :
    ∃ us', us = t :: us' ∧ Commented ts us' := by
  cases h with
  | same => exact ⟨ts, rfl, .same ts⟩
  | here hn => exact absurd hn ht
  | cons _ h => exact ⟨_, rfl, h⟩

theorem append_left (before : List Token) (h : Commented ts us) : Commented (before ++ ts) (before ++ us) := by
  induction before with
  | nil => exact h
  | cons t before ih => exact .cons t ih

/-- Skips that go over line ends and comments. -/
theorem dropWhile_over {p : Token → Bool} (hnewline : ∀ t, t.kind = .newline → p t)
    (hcomment : ∀ t, t.kind = .comment → p t) (h : Commented ts us) :
    Commented (ts.dropWhile p) (us.dropWhile p) := by
  induction h with
  | same ts => exact .same _
  | here hn hn' hc hm =>
    rw [List.dropWhile_cons_of_pos (hnewline _ hn), List.dropWhile_cons_of_pos (hnewline _ hn'),
      List.dropWhile_cons_of_pos (hcomment _ hc), List.dropWhile_cons_of_pos (hnewline _ hm)]
    exact .same _
  | cons t h ih =>
    by_cases ht : p t
    · rwa [List.dropWhile_cons_of_pos ht, List.dropWhile_cons_of_pos ht]
    · rw [List.dropWhile_cons_of_neg ht, List.dropWhile_cons_of_neg ht]
      exact .cons t h

/-- Skips that stop at a line end. -/
theorem dropWhile_upto {p : Token → Bool} (hnewline : ∀ t, t.kind = .newline → ¬ p t)
    (h : Commented ts us) : Commented (ts.dropWhile p) (us.dropWhile p) := by
  induction h with
  | same ts => exact .same _
  | here hn hn' hc hm =>
    rw [List.dropWhile_cons_of_neg (hnewline _ hn), List.dropWhile_cons_of_neg (hnewline _ hn')]
    exact .here hn hn' hc hm
  | cons t h ih =>
    by_cases ht : p t
    · rwa [List.dropWhile_cons_of_pos ht, List.dropWhile_cons_of_pos ht]
    · rw [List.dropWhile_cons_of_neg ht, List.dropWhile_cons_of_neg ht]
      exact .cons t h

end Commented

/-- The same reading, with the comment line in what is left over or without it. -/
structure Reading.Alike {α : Type} (r r' : Reading α) : Prop where
  value : r'.value = r.value
  errors : r'.errors = r.errors
  rest : Commented r.rest r'.rest

namespace Reader

variable {t : Token} {ts us : List Token}

/-! ## Skips and tags -/

theorem isGap_of_newline (h : t.kind = .newline) : isGap t := by simp [isGap, h]

theorem isGap_of_comment (h : t.kind = .comment) : isGap t := by simp [isGap, h]

theorem inTagRun_of_isGap (h : isGap t) : inTagRun t := by simp [inTagRun, h]

section
variable (h : Commented ts us)
include h

theorem commented_skipGaps : Commented (skipGaps ts) (skipGaps us) :=
  h.dropWhile_over (fun _ => isGap_of_newline) (fun _ => isGap_of_comment)

theorem commented_skipTags : Commented (skipTags ts) (skipTags us) :=
  h.dropWhile_over (fun _ hn => inTagRun_of_isGap (isGap_of_newline hn))
    (fun _ hc => inTagRun_of_isGap (isGap_of_comment hc))

theorem commented_synchronize : Commented (synchronize ts) (synchronize us) :=
  h.dropWhile_over (fun _ hn => by simp [isAnchor, hn]) (fun _ hc => by simp [isAnchor, hc])

theorem commented_skipLine : Commented (skipLine ts) (skipLine us) :=
  h.dropWhile_upto (fun _ hn => by simp [hn])

theorem exists_skipGaps_of_commented {more : List Token} (hskip : skipGaps ts = t :: more) :
    ∃ more', skipGaps us = t :: more' ∧ Commented more more' := by
  have hgap := isGap_of_skipGaps hskip
  refine Commented.exists_cons (hskip ▸ commented_skipGaps h) fun ht => ?_
  simp [isGap_of_newline ht] at hgap

theorem skipGaps_eq_nil_of_commented (hskip : skipGaps ts = []) : skipGaps us = [] :=
  Commented.eq_nil (hskip ▸ commented_skipGaps h)

theorem exists_skipTags_of_commented {more : List Token} (hskip : skipTags ts = t :: more) :
    ∃ more', skipTags us = t :: more' ∧ Commented more more' := by
  have hgap := isGap_of_skipTags hskip
  refine Commented.exists_cons (hskip ▸ commented_skipTags h) fun ht => ?_
  simp [isGap_of_newline ht] at hgap

theorem skipTags_eq_nil_of_commented (hskip : skipTags ts = []) : skipTags us = [] :=
  Commented.eq_nil (hskip ▸ commented_skipTags h)

theorem tagRun_of_commented : tagRun us = tagRun ts := by
  have hfront : frontTags us = frontTags ts := by
    unfold frontTags
    induction h with
    | same ts => rfl
    | here hn hn' hc hm =>
      rw [List.takeWhile_cons_of_pos (inTagRun_of_isGap (isGap_of_newline hn)),
        List.takeWhile_cons_of_pos (inTagRun_of_isGap (isGap_of_newline hn')),
        List.takeWhile_cons_of_pos (inTagRun_of_isGap (isGap_of_comment hc)),
        List.takeWhile_cons_of_pos (inTagRun_of_isGap (isGap_of_newline hm))]
      simp [hn, hn', hc, hm]
    | cons t h ih =>
      by_cases ht : inTagRun t
      · rw [List.takeWhile_cons_of_pos ht, List.takeWhile_cons_of_pos ht, List.filter_cons, List.filter_cons, ih]
      · rw [List.takeWhile_cons_of_neg ht, List.takeWhile_cons_of_neg ht]
  show (TagRun.mk (((frontTags us).map Token.text).eraseDups) ((frontTags us).head?.map Token.location)) = _
  rw [hfront]
  rfl

end

/-! ## Descriptions -/

variable (source : List Char)

theorem descriptionLines_commented {newlines : Nat} (h : Commented ts us) :
    (descriptionLines source newlines us).1 = (descriptionLines source newlines ts).1 ∧
      Commented (descriptionLines source newlines ts).2 (descriptionLines source newlines us).2 := by
  fun_induction descriptionLines source newlines ts generalizing us with
  | case1 =>
    rw [h.eq_nil, descriptionLines]
    exact ⟨rfl, .same _⟩
  | case2 newlines t ts ht ih =>
    cases h with
    | same =>
      rw [descriptionLines_of_newline ht]
      exact ⟨rfl, .same _⟩
    | here hn hn' hc hm =>
      -- The comment takes its own line end with it, so that no more line ends are counted.
      rw [descriptionLines_of_newline hn', descriptionLines_of_comment_newline hc hm]
      exact ⟨rfl, .same _⟩
    | cons _ hmore =>
      rw [descriptionLines_of_newline ht]
      exact ih hmore
  | case3 newlines t _ ht n ts hn ih =>
    obtain ⟨us, rfl, hmore⟩ := h.exists_cons (by simp [ht])
    cases hmore with
    | same =>
      rw [descriptionLines_of_comment_newline ht hn]
      exact ⟨rfl, .same _⟩
    | here _ hn' hc hm =>
      rw [descriptionLines_of_comment_newline ht hn', descriptionLines_of_comment_newline hc hm]
      exact ⟨rfl, .same _⟩
    | cons _ hmore =>
      rw [descriptionLines_of_comment_newline ht hn]
      exact ih hmore
  | case4 newlines t _ ht n ts hn ih =>
    obtain ⟨us, rfl, hmore⟩ := h.exists_cons (by simp [ht])
    obtain ⟨vs, rfl, -⟩ := hmore.exists_cons hn
    rw [descriptionLines_of_comment ht (by simpa using hn)]
    exact ih hmore
  | case5 newlines t _ ht =>
    obtain ⟨us, rfl, hmore⟩ := h.exists_cons (by simp [ht])
    rw [hmore.eq_nil, descriptionLines_of_comment ht (by simp), descriptionLines]
    exact ⟨rfl, .same _⟩
  | case6 newlines t ts _ _ hinline _ more rest hlines ih =>
    obtain ⟨us, rfl, hmore⟩ := h.exists_cons (by intro hn; simp [hn, TokenKind.isInline] at hinline)
    obtain ⟨hvalue, hrest⟩ := ih (commented_skipLine hmore)
    rw [hlines] at hvalue hrest
    rw [descriptionLines_of_isInline hinline, hvalue]
    exact ⟨rfl, hrest⟩
  | case7 newlines t ts hnewline hcomment hinline =>
    obtain ⟨us, rfl, hmore⟩ := h.exists_cons hnewline
    rw [descriptionLines_of_stop (by simp [isGap, hnewline, hcomment]) (Bool.eq_false_iff.2 hinline)]
    exact ⟨rfl, .cons t hmore⟩

section
variable (h : Commented ts us)
include h

theorem headerDescription_commented : headerDescription source us = headerDescription source ts := by
  unfold headerDescription description
  rw [(descriptionLines_commented source (commented_skipLine h)).1]

theorem commented_skipHeader : Commented (skipHeader source ts) (skipHeader source us) :=
  (descriptionLines_commented source (commented_skipLine h)).2

end

/-! ## Tables and steps -/

theorem rows_commented (h : Commented ts us) :
    (rows us).1 = (rows ts).1 ∧ Commented (rows ts).2 (rows us).2 := by
  fun_induction rows ts generalizing us with
  | case1 =>
    rw [h.eq_nil, rows]
    exact ⟨rfl, .same _⟩
  | case2 t ts ht _ more rest hrows ih =>
    obtain ⟨us, rfl, hmore⟩ := h.exists_cons (by simp [ht])
    obtain ⟨hvalue, hrest⟩ := ih (commented_skipGaps hmore)
    rw [hrows] at hvalue hrest
    rw [rows, if_pos ht]
    exact ⟨congrArg (t :: ·) hvalue, hrest⟩
  | case3 t ts ht =>
    have hstop : ∀ {u : Token} {vs : List Token}, u.kind ≠ .tableRow → rows (u :: vs) = ([], u :: vs) := by
      intro u vs hu
      rw [rows, if_neg hu]
    cases h with
    | same =>
      rw [hstop ht]
      exact ⟨rfl, .same _⟩
    | here hn hn' hc hm =>
      rw [hstop (by simp [hn'])]
      exact ⟨rfl, .here hn hn' hc hm⟩
    | cons _ hmore =>
      rw [hstop ht]
      exact ⟨rfl, .cons t hmore⟩

section
variable (h : Commented ts us)
include h

theorem table_commented : (table t ts).Alike (table t us) := by
  obtain ⟨hvalue, hrest⟩ := rows_commented (.cons t h)
  unfold table
  dsimp only
  rw [hvalue]
  exact ⟨rfl, rfl, hrest⟩

theorem argument_commented : (argument source ts).Alike (argument source us) := by
  cases h with
  | same => exact ⟨rfl, rfl, .same _⟩
  | here hn hn' hc hm =>
    have hstop : ∀ {u : Token} {vs : List Token}, u.kind = .newline →
        argument source (u :: vs) = ⟨(none, none), [], u :: vs⟩ := by
      intro u vs hu
      rw [argument, if_neg (by simp [hu]), if_neg (by simp [hu])]
    rw [hstop hn, hstop hn']
    exact ⟨rfl, rfl, .here hn hn' hc hm⟩
  | @cons t ts us hmore =>
    rw [argument, argument]
    by_cases hrow : t.kind = .tableRow
    · obtain ⟨hvalue, herrors, hrest⟩ := table_commented (t := t) hmore
      rw [if_pos hrow, if_pos hrow]
      exact ⟨congrArg (fun table => (some table, none)) hvalue, herrors, hrest⟩
    · rw [if_neg hrow, if_neg hrow]
      by_cases hdoc : t.kind = .docString
      · rw [if_pos hdoc, if_pos hdoc]
        exact ⟨rfl, rfl, hmore⟩
      · rw [if_neg hdoc, if_neg hdoc]
        exact ⟨rfl, rfl, .cons t hmore⟩

theorem step_commented (k : StepKeyword) : (step source k t ts).Alike (step source k t us) := by
  obtain ⟨hvalue, herrors, hrest⟩ := argument_commented source
    (commented_skipGaps (commented_skipLine h))
  unfold step
  dsimp only
  rw [hvalue, herrors]
  exact ⟨rfl, rfl, hrest⟩

end

theorem steps_commented (h : Commented ts us) : (steps source ts).Alike (steps source us) := by
  -- For all `us` at once, because what is left over with the comment line differs from step to step.
  fun_induction steps source ts generalizing us with
  | case1 ts hgaps =>
    rw [steps_of_skipGaps_eq_nil (skipGaps_eq_nil_of_commented h hgaps)]
    exact ⟨rfl, rfl, .same _⟩
  | case2 ts t more hgaps k hk first _ others =>
    rename_i ih
    obtain ⟨more', hgaps', hmore⟩ := exists_skipGaps_of_commented h hgaps
    have hfirst : first.Alike (step source k t more') := step_commented source hmore k
    have hothers := ih hfirst.rest
    rw [steps_of_step hgaps' hk]
    dsimp only
    rw [hfirst.value, hfirst.errors, hothers.value, hothers.errors]
    exact ⟨rfl, rfl, hothers.rest⟩
  | case3 ts t more hgaps _ fault hfault =>
    obtain ⟨more', hgaps', hmore⟩ := exists_skipGaps_of_commented h hgaps
    rw [steps_of_fault hgaps' hfault]
    exact ⟨rfl, rfl, commented_synchronize hmore⟩
  | case4 ts t more hgaps hk hfault =>
    obtain ⟨more', hgaps', hmore⟩ := exists_skipGaps_of_commented h hgaps
    rw [steps_of_stop hgaps' (isStep_eq_false hk) hfault]
    exact ⟨rfl, rfl, .cons t hmore⟩

/-! ## Blocks -/

theorem examples_commented (tags : List String) (h : Commented ts us) :
    (examples source tags t ts).Alike (examples source tags t us) := by
  have hskip := commented_skipHeader source h
  unfold examples
  rw [headerDescription_commented source h]
  cases hgaps : skipGaps (skipHeader source ts) with
  | nil =>
    rw [skipGaps_eq_nil_of_commented hskip hgaps]
    exact ⟨rfl, rfl, .same _⟩
  | cons a more =>
    obtain ⟨more', hgaps', hmore⟩ := exists_skipGaps_of_commented hskip hgaps
    rw [hgaps']
    dsimp only
    by_cases hrow : a.kind = .tableRow
    · obtain ⟨hvalue, herrors, hrest⟩ := table_commented (t := a) hmore
      rw [if_pos hrow, if_pos hrow, hvalue, herrors]
      exact ⟨rfl, rfl, hrest⟩
    · rw [if_neg hrow, if_neg hrow]
      exact ⟨rfl, rfl, .cons a hmore⟩

theorem exampleBlocks_commented (started : Bool) (h : Commented ts us) :
    (exampleBlocks source started ts).Alike (exampleBlocks source started us) := by
  fun_induction exampleBlocks source started ts generalizing us with
  | case1 started ts hskip =>
    rw [exampleBlocks_of_skipTags_eq_nil (skipTags_eq_nil_of_commented h hskip)]
    exact ⟨rfl, rfl, h⟩
  | case2 started ts t more hskip _ hk first _ others =>
    rename_i ih
    obtain ⟨more', hskip', hmore⟩ := exists_skipTags_of_commented h hskip
    have hfirst : first.Alike (examples source (tagRun ts).tags t more') := examples_commented source _ hmore
    have hothers := ih hfirst.rest
    rw [exampleBlocks_of_examples hskip' hk, tagRun_of_commented h]
    dsimp only
    rw [hfirst.value, hfirst.errors, hothers.value, hothers.errors]
    exact ⟨rfl, rfl, hothers.rest⟩
  | case3 ts t more hskip _ k hk _ others =>
    rename_i ih
    obtain ⟨more', hskip', hmore⟩ := exists_skipTags_of_commented h hskip
    have hothers := ih (commented_synchronize hmore)
    rw [exampleBlocks_of_step hskip' (by rw [hk]; rfl)]
    dsimp only
    rw [hothers.value, hothers.errors]
    exact ⟨rfl, rfl, hothers.rest⟩
  | case4 started ts t more hskip _ k hk hstarted =>
    obtain ⟨more', hskip', hmore⟩ := exists_skipTags_of_commented h hskip
    obtain rfl : started = false := by simpa using hstarted
    rw [exampleBlocks_of_step_before hskip' (by rw [hk]; rfl)]
    exact ⟨rfl, rfl, h⟩
  | case5 started ts t more hskip _ hexamples hstep =>
    obtain ⟨more', hskip', hmore⟩ := exists_skipTags_of_commented h hskip
    rw [exampleBlocks_of_stop hskip' (isStep_eq_false hstep) hexamples]
    exact ⟨rfl, rfl, h⟩

theorem child_commented (tags : List String) (h : Commented ts us) :
    (child source tags t ts).Alike (child source tags t us) := by
  have hsteps := steps_commented source (commented_skipHeader source h)
  have hblocks := exampleBlocks_commented source false hsteps.rest
  unfold child
  dsimp only
  rw [headerDescription_commented source h, hsteps.value, hsteps.errors, hblocks.value, hblocks.errors]
  split
  · exact ⟨rfl, rfl, hblocks.rest⟩
  · exact ⟨rfl, rfl, hblocks.rest⟩

theorem background_commented (h : Commented ts us) :
    (background source t ts).Alike (background source t us) := by
  have hsteps := steps_commented source (commented_skipHeader source h)
  unfold background
  dsimp only
  rw [headerDescription_commented source h, hsteps.value, hsteps.errors]
  exact ⟨rfl, rfl, hsteps.rest⟩

/-! ## Features -/

/-- The next part is the same, or there is none in either. -/
theorem part?_commented (bar : Option OrderFault) (h : Commented ts us) :
    (part? source bar ts = none ∧ part? source bar us = none) ∨
      ∃ r r', part? source bar ts = some r ∧ part? source bar us = some r' ∧ r.Alike r' := by
  cases hskip : skipTags ts with
  | nil =>
    exact .inl ⟨part?_of_skipTags_eq_nil bar hskip,
      part?_of_skipTags_eq_nil bar (skipTags_eq_nil_of_commented h hskip)⟩
  | cons t more =>
    obtain ⟨more', hskip', hmore⟩ := exists_skipTags_of_commented h hskip
    right
    unfold part?
    rw [hskip, hskip', tagRun_of_commented h]
    dsimp only
    by_cases hbackground : t.kind = .block .background
    · obtain ⟨hvalue, herrors, hrest⟩ := background_commented source (t := t) hmore
      rw [if_pos hbackground, if_pos hbackground, hvalue, herrors]
      exact ⟨_, _, rfl, rfl, rfl, rfl, hrest⟩
    rw [if_neg hbackground, if_neg hbackground]
    by_cases hchild : t.kind = .block .scenario ∨ t.kind = .block .scenarioOutline
    · obtain ⟨hvalue, herrors, hrest⟩ :=
        child_commented source (t := t) (tagRun ts).tags hmore
      rw [if_pos hchild, if_pos hchild, hvalue, herrors]
      exact ⟨_, _, rfl, rfl, rfl, rfl, hrest⟩
    rw [if_neg hchild, if_neg hchild]
    by_cases hexamples : t.kind = .block .examples
    · obtain ⟨-, herrors, hrest⟩ := examples_commented source (t := t) [] hmore
      rw [if_pos hexamples, if_pos hexamples, herrors]
      exact ⟨_, _, rfl, rfl, rfl, rfl, hrest⟩
    rw [if_neg hexamples, if_neg hexamples]
    exact ⟨_, _, rfl, rfl, rfl, rfl, commented_synchronize hmore⟩

theorem body_commented (f : Feature) (h : Commented ts us) : body source f us = body source f ts := by
  -- On the length of the first tokens, of which every part takes some.
  induction hn : ts.length using Nat.strong_induction_on generalizing ts us f with
  | h n ih =>
    rcases part?_commented source (backgroundFault? f) h with
      ⟨hts, hus⟩ | ⟨r, r', hts, hus, hvalue, herrors, hrest⟩
    · rw [body_of_part?_eq_none hts, body_of_part?_eq_none hus, tagRun_of_commented h]
    · have hlength := (length_rest_lt_of_part? hts).2
      rw [body_of_part?_eq_some hts, body_of_part?_eq_some hus, hvalue, herrors,
        ih r.rest.length (hn ▸ hlength) _ hrest rfl]

theorem headerFault_commented (finish : Location) (h : Commented ts us) :
    headerFault finish us = headerFault finish ts := by
  unfold headerFault
  cases hskip : skipTags ts with
  | nil => rw [skipTags_eq_nil_of_commented h hskip]
  | cons t more =>
    obtain ⟨more', hskip', -⟩ := exists_skipTags_of_commented h hskip
    rw [hskip']

theorem header?_commented (h : Commented ts us) : (header? ts = none ∧ header? us = none) ∨
    ∃ tags t more more', header? ts = some (tags, t, more) ∧ header? us = some (tags, t, more') ∧
      Commented more more' := by
  fun_induction header? ts generalizing us with
  | case1 ts hskip =>
    exact .inl ⟨rfl, header?_of_skipTags_eq_nil (skipTags_eq_nil_of_commented h hskip)⟩
  | case2 ts t more hskip _ ht =>
    obtain ⟨more', hskip', hmore⟩ := exists_skipTags_of_commented h hskip
    refine .inr ⟨_, t, more, more', rfl, ?_, hmore⟩
    rw [header?_of_feature hskip' ht, tagRun_of_commented h]
  | case3 ts t more hskip _ ht ih =>
    obtain ⟨more', hskip', hmore⟩ := exists_skipTags_of_commented h hskip
    rw [header?_of_ne_feature hskip' ht]
    exact ih hmore

theorem live_commented (h : Commented ts us) : Commented (live ts) (live us) := by
  unfold live
  induction h with
  | same ts => exact .same _
  | here hn hn' hc hm =>
    rw [List.takeWhile_cons_of_pos (by simp [hn]), List.takeWhile_cons_of_pos (by simp [hn']),
      List.takeWhile_cons_of_pos (by simp [hc]), List.takeWhile_cons_of_pos (by simp [hm])]
    exact .here hn hn' hc hm
  | cons t h ih =>
    by_cases ht : t.kind ≠ .eof
    · rw [List.takeWhile_cons_of_pos (by simpa using ht), List.takeWhile_cons_of_pos (by simpa using ht)]
      exact .cons t ih
    · rw [List.takeWhile_cons_of_neg (by simpa using ht), List.takeWhile_cons_of_neg (by simpa using ht)]
      exact .same _

theorem finish_commented (h : Commented ts us) (heof : ∃ t ∈ ts, t.kind = .eof) :
    finish source us = finish source ts := by
  -- What is put in is no end of the source.
  have hfind : us.find? (fun t => t.kind = .eof) = ts.find? fun t => t.kind = .eof := by
    clear heof
    induction h with
    | same ts => rfl
    | here hn hn' hc hm => simp [hn, hn', hc, hm]
    | cons t h ih => rw [List.find?_cons, List.find?_cons, ih]
  have hsome : (ts.find? fun t => t.kind = .eof).isSome := by simpa [List.find?_isSome] using heof
  obtain ⟨t, ht⟩ := Option.isSome_iff_exists.1 hsome
  unfold finish
  rw [hfind, ht]

/-! ## Gaps at the start -/

section
variable (ht : isGap t)
include ht

theorem skipTags_cons_of_isGap : skipTags (t :: ts) = skipTags ts :=
  List.dropWhile_cons_of_pos (inTagRun_of_isGap ht)

theorem tagRun_cons_of_isGap : tagRun (t :: ts) = tagRun ts := by
  have htag : t.kind ≠ .tag := by
    intro hk
    simp [isGap, hk] at ht
  unfold tagRun
  rw [List.takeWhile_cons_of_pos (inTagRun_of_isGap ht), List.filter_cons_of_neg (by simpa using htag)]

theorem header?_cons_of_isGap : header? (t :: ts) = header? ts := by
  have hskip : skipTags (t :: ts) = skipTags ts := skipTags_cons_of_isGap ht
  cases hts : skipTags ts with
  | nil =>
    rw [header?_of_skipTags_eq_nil hts, header?_of_skipTags_eq_nil (hskip.trans hts)]
  | cons u more =>
    by_cases hu : u.kind = .block .feature
    · rw [header?_of_feature hts hu, header?_of_feature (hskip.trans hts) hu, tagRun_cons_of_isGap ht]
    · rw [header?_of_ne_feature hts hu, header?_of_ne_feature (hskip.trans hts) hu]

theorem ne_eof_of_isGap : t.kind ≠ .eof := by
  intro hk
  simp [isGap, hk] at ht

end

end Reader

/-- Gaps at the start of the tokens make no difference to the document. -/
theorem Parsed.ofTokens_cons_of_isGap {source : String} {t : Token} {ts : List Token} (ht : Reader.isGap t)
    (heof : ∃ u ∈ ts, u.kind = .eof) : Parsed.ofTokens source (t :: ts) = Parsed.ofTokens source ts := by
  have hkind := Reader.ne_eof_of_isGap ht
  have hlive : Reader.live (t :: ts) = t :: Reader.live ts :=
    List.takeWhile_cons_of_pos (by simpa using hkind)
  have hfinish : Reader.finish source.toList (t :: ts) = Reader.finish source.toList ts := by
    have hsome : (ts.find? fun u => u.kind = .eof).isSome := by simpa [List.find?_isSome] using heof
    obtain ⟨u, hu⟩ := Option.isSome_iff_exists.1 hsome
    unfold Reader.finish
    rw [List.find?_cons_of_neg (by simpa using hkind), hu]
  rw [Parsed.ofTokens_eq, Parsed.ofTokens_eq]
  unfold Parsed.ofLive
  dsimp only
  rw [hlive, hfinish, Reader.header?_cons_of_isGap ht]
  unfold Reader.headerFault
  rw [Reader.skipTags_cons_of_isGap ht]

/-- A comment line among the tokens makes no difference to the document. -/
theorem Parsed.ofTokens_commented {source : String} {ts us : List Token} (h : Commented ts us)
    (heof : ∃ t ∈ ts, t.kind = .eof) : Parsed.ofTokens source us = Parsed.ofTokens source ts := by
  have hlive := Reader.live_commented h
  rw [Parsed.ofTokens_eq, Parsed.ofTokens_eq]
  unfold Parsed.ofLive
  dsimp only
  rw [Reader.finish_commented source.toList h heof, Reader.headerFault_commented _ hlive]
  rcases Reader.header?_commented hlive with ⟨hts, hus⟩ | ⟨tags, t, more, more', hts, hus, hmore⟩
  · rw [hts, hus]
  · rw [hts, hus]
    dsimp only
    rw [Reader.headerDescription_commented source.toList hmore,
      Reader.body_commented source.toList _ (Reader.commented_skipHeader source.toList hmore)]

end Gherkin
