import Gherkin.Proofs.Pattern.Matching
import Gherkin.Proofs.Run.Calls

/-!
# The life of a scenario

What the report of a scenario says of the calls that were made: its steps pass up to one that halts the
scenario, and the rest is skipped.
-/

namespace Gherkin

/-! ## Keywords -/

namespace StepKeyword

/-- The last keyword of a sequence that is no conjunction. -/
def nearest? (ks : List StepKeyword) : Option StepKeyword := (ks.filter fun k => !k.isConjunction).getLast?

/-- What the last step of a sequence stands for, by the keywords of all its steps. -/
def nearest (ks : List StepKeyword) : StepKeyword := (nearest? ks).getD .given

theorem follow_eq (last : Option StepKeyword) (k : StepKeyword) :
    follow last k = (nearest? [k]).or last := by
  cases k <;> rfl

theorem resolve_eq (last : Option StepKeyword) (k : StepKeyword) :
    resolve last k = ((nearest? [k]).or last).getD .given := by
  cases k <;> rfl

theorem nearest?_cons (k : StepKeyword) (ks : List StepKeyword) :
    nearest? (k :: ks) = (nearest? ks).or (nearest? [k]) := by
  unfold nearest?
  rw [List.filter_cons]
  cases k <;> simp [isConjunction, List.getLast?_cons]

theorem getElem?_resolveAll (last : Option StepKeyword) (ks : List StepKeyword) (i : Nat) :
    (resolveAll last ks)[i]? = ks[i]?.map fun _ => ((nearest? (ks.take (i + 1))).or last).getD .given := by
  induction ks generalizing last i with
  | nil => rfl
  | cons k ks ih =>
    cases i with
    | zero =>
      show some (resolve last k) = some (((nearest? [k]).or last).getD .given)
      rw [resolve_eq]
    | succ i =>
      rw [resolveAll, List.getElem?_cons_succ, ih, List.getElem?_cons_succ, List.take_succ_cons,
        nearest?_cons, follow_eq, Option.or_assoc]

theorem length_resolveAll (last : Option StepKeyword) (ks : List StepKeyword) :
    (resolveAll last ks).length = ks.length := by
  induction ks generalizing last with
  | nil => rfl
  | cons k ks ih => rw [resolveAll, List.length_cons, ih, List.length_cons]

end StepKeyword

/-! ## Reports of steps -/

namespace StepReport

section
variable {steps : List Step} {outcomes : List Outcome}

theorem length_resolveAll_map (steps : List Step) :
    (StepKeyword.resolveAll none (steps.map Step.keyword)).length = steps.length := by
  rw [StepKeyword.length_resolveAll, List.length_map]

theorem length_zip_resolveAll (h : outcomes.length = steps.length) :
    ((StepKeyword.resolveAll none (steps.map Step.keyword)).zip outcomes).length = steps.length := by
  rw [List.length_zip, length_resolveAll_map, h, Nat.min_self]

theorem map_outcome_ofOutcomes (h : outcomes.length = steps.length) :
    (ofOutcomes steps outcomes).map StepReport.outcome = outcomes := by
  unfold ofOutcomes
  rw [List.map_map]
  show (steps.zip _).map (Prod.snd ∘ Prod.snd) = outcomes
  rw [← List.map_map, List.map_snd_zip (Nat.le_of_eq (length_zip_resolveAll h)), List.map_snd_zip]
  exact Nat.le_of_eq (by rw [length_resolveAll_map, h])

theorem map_written_ofOutcomes (h : outcomes.length = steps.length) :
    (ofOutcomes steps outcomes).map (fun x => (x.keyword, x.text, x.location)) =
      steps.map fun x => (x.keyword, x.text, x.location) := by
  unfold ofOutcomes
  rw [List.map_map]
  show (steps.zip _).map ((fun x : Step => (x.keyword, x.text, x.location)) ∘ Prod.fst) = _
  rw [← List.map_map, List.map_fst_zip (Nat.le_of_eq (length_zip_resolveAll h).symm)]

theorem map_resolved_ofOutcomes (h : outcomes.length = steps.length) :
    (ofOutcomes steps outcomes).map StepReport.resolved =
      StepKeyword.resolveAll none (steps.map Step.keyword) := by
  unfold ofOutcomes
  rw [List.map_map]
  show (steps.zip _).map (Prod.fst ∘ Prod.snd) = _
  rw [← List.map_map, List.map_snd_zip (Nat.le_of_eq (length_zip_resolveAll h)), List.map_fst_zip]
  exact Nat.le_of_eq (by rw [length_resolveAll_map, h])

/-- The keyword a step stands for is the last before it or its own that is no conjunction. -/
theorem getElem?_resolved_ofOutcomes (h : outcomes.length = steps.length) (i : Nat) :
    (ofOutcomes steps outcomes)[i]?.map StepReport.resolved = steps[i]?.map fun _ =>
      StepKeyword.nearest ((steps.take (i + 1)).map Step.keyword) := by
  rw [← List.getElem?_map, map_resolved_ofOutcomes h, StepKeyword.getElem?_resolveAll,
    List.getElem?_map, Option.map_map, List.map_take, Option.or_none]
  rfl

end

end StepReport

/-! ## Status -/

namespace ScenarioReport

theorem status_eq_failed_iff (r : ScenarioReport) : r.status = .failed ↔
    r.hookFailures ≠ [] ∨ ∃ x ∈ r.steps, x.outcome.status = .failed := by
  unfold status
  dsimp only
  split
  · rename_i h
    simpa using h
  · rename_i h
    have hnone : ¬ (r.hookFailures ≠ [] ∨ ∃ x ∈ r.steps, x.outcome.status = .failed) := by simpa using h
    refine iff_of_false ?_ hnone
    split
    · simp
    · split <;> simp

theorem status_eq_undefined_iff (r : ScenarioReport) : r.status = .undefined ↔
    r.status ≠ .failed ∧ ∃ x ∈ r.steps, x.outcome.status = .undefined := by
  unfold status
  dsimp only
  split
  · simp
  · split
    · rename_i h
      simpa using h
    · rename_i h
      have hnone : ¬ ∃ x ∈ r.steps, x.outcome.status = .undefined := by simpa using h
      refine iff_of_false ?_ fun h => hnone h.2
      split <;> simp

theorem status_eq_skipped_iff (r : ScenarioReport) : r.status = .skipped ↔
    r.status ≠ .failed ∧ r.steps ≠ [] ∧ ∀ x ∈ r.steps, x.outcome = .skipped := by
  unfold status
  dsimp only
  split
  · simp
  · split
    · rename_i h
      have hsome : ∃ x ∈ r.steps, x.outcome.status = .undefined := by simpa using h
      refine iff_of_false (by simp) fun hall => ?_
      rcases hsome with ⟨x, hx, hundefined⟩
      rw [hall.2.2 x hx] at hundefined
      cases hundefined
    · split
      · rename_i h
        simpa [Outcome.status_eq_skipped_iff] using h
      · rename_i h
        refine iff_of_false (by simp) fun hall => h ?_
        simpa [Outcome.status_eq_skipped_iff] using hall.2

end ScenarioReport

/-! ## Calls that fail -/

def Call.FailsAt (point : HookPoint) (c : Call) : Prop := ∃ index e, c = ⟨.hook point index, some e⟩

def Call.Causes (c : Call) : ExecutionError → Prop
  | .step _ pattern e => c = ⟨.handler pattern, some e⟩
  | .hook point e => ∃ index, c = ⟨.hook point index, some e⟩
  | .undefined _ => False
  | .conversion _ _ => False

theorem Call.failsAt_iff {point : HookPoint} {c : Call} :
    c.FailsAt point ↔ ∃ e, c.Causes (.hook point e) := exists_comm

theorem Call.not_causes_of_passed (callee : Callee) (x : ExecutionError) :
    ¬ Call.Causes ⟨callee, none⟩ x := by
  cases x <;> simp [Causes]

variable {World : Type}

section
variable {point : HookPoint} {index : Nat} {hooks : List (Effect World)} {σ σ' : Scene World}
  {calls : List Call} {result : Except StepError Unit}

theorem HookCalls.mem_hookFailure? (h : HookCalls point index hooks σ calls result σ')
    (x : ExecutionError) : x ∈ (hookFailure? point result).toList ↔ ∃ c ∈ calls, c.Causes x := by
  induction h with
  | done => simp [hookFailure?, failure?]
  | passed _ _ ih => simpa [Call.not_causes_of_passed] using ih
  | failed =>
    cases x with
    | hook => simp [hookFailure?, failure?, Call.Causes, eq_comm]
    | undefined | conversion | step => simp [hookFailure?, failure?, Call.Causes]

theorem exists_of_mem_hookFailure? {x : ExecutionError} (h : x ∈ (hookFailure? point result).toList) :
    ∃ e, x = .hook point e := by
  rcases Option.map_eq_some_iff.1 (Option.mem_toList.1 h) with ⟨e, -, rfl⟩
  exact ⟨e, rfl⟩

theorem HookCalls.failsAt_iff (h : HookCalls point index hooks σ calls result σ') (at' : HookPoint) :
    (∃ c ∈ calls, c.FailsAt at') ↔ at' = point ∧ ∃ e, result = .error e := by
  have hmem : (∃ c ∈ calls, c.FailsAt at') ↔ ∃ e, .hook at' e ∈ (hookFailure? point result).toList := by
    simp only [Call.failsAt_iff, h.mem_hookFailure?]
    constructor
    · rintro ⟨c, hc, e, he⟩
      exact ⟨e, c, hc, he⟩
    · rintro ⟨e, c, hc, he⟩
      exact ⟨c, hc, e, he⟩
  rw [hmem]
  cases result <;> simp [hookFailure?, failure?, eq_comm]

theorem HookCalls.eq_hook (h : HookCalls point index hooks σ calls result σ') {c : Call}
    (hc : c ∈ calls) : ∃ i, c.callee = .hook point i := by
  induction h with
  | done => simp at hc
  | passed _ _ ih =>
    rcases List.mem_cons.1 hc with rfl | hc
    · exact ⟨_, rfl⟩
    · exact ih hc
  | failed =>
    rw [List.mem_singleton.1 hc]
    exact ⟨_, rfl⟩

end

theorem HandlerCalls.eq_handler {registry : Registry World} {step : Step} {σ σ' : Scene World}
    {calls : List Call} {o : Outcome} (h : HandlerCalls registry step σ calls o σ') {c : Call}
    (hc : c ∈ calls) : ∃ pattern, c.callee = .handler pattern := by
  cases h with
  | undefined | unconverted => simp at hc
  | passed | failed =>
    rw [List.mem_singleton.1 hc]
    exact ⟨_, rfl⟩

theorem StepCalls.callee_cases {hooks : Hooks World} {registry : Registry World} {step : Step}
    {σ σ' : Scene World} {calls : List Call} {o : Outcome}
    (h : StepCalls hooks registry step σ calls o σ') {c : Call} (hc : c ∈ calls) :
    (∃ pattern, c.callee = .handler pattern) ∨
      ∃ i, c.callee = .hook .beforeStep i ∨ c.callee = .hook .afterStep i := by
  cases h with
  | barred hbefore =>
    rcases hbefore.eq_hook hc with ⟨i, hi⟩
    exact Or.inr ⟨i, Or.inl hi⟩
  | called hbefore hown hafter =>
    rcases List.mem_append.1 hc with hc | hc
    · rcases List.mem_append.1 hc with hc | hc
      · rcases hbefore.eq_hook hc with ⟨i, hi⟩
        exact Or.inr ⟨i, Or.inl hi⟩
      · exact Or.inl (hown.eq_handler hc)
    · rcases hafter.eq_hook hc with ⟨i, hi⟩
      exact Or.inr ⟨i, Or.inr hi⟩

theorem StepsCalls.not_failsAt {hooks : Hooks World} {registry : Registry World} {steps : List Step}
    {σ σ' : Scene World} {calls : List Call} {outcomes : List Outcome}
    (h : StepsCalls hooks registry steps σ calls outcomes σ') {point : HookPoint}
    (hpoint : point = .beforeScenario ∨ point = .afterScenario) : ¬ ∃ c ∈ calls, c.FailsAt point := by
  have hstep : ∀ {step : Step} {σ σ' : Scene World} {calls : List Call} {o : Outcome},
      StepCalls hooks registry step σ calls o σ' → ¬ ∃ c ∈ calls, c.FailsAt point := by
    rintro _ _ _ _ _ h ⟨_, hc, i, e, rfl⟩
    rcases hpoint with rfl | rfl <;> simpa using h.callee_cases hc
  induction h with
  | done => simp
  | passed h _ ih =>
    rintro ⟨c, hc, hfails⟩
    rcases List.mem_append.1 hc with hc | hc
    · exact hstep h ⟨c, hc, hfails⟩
    · exact ih ⟨c, hc, hfails⟩
  | halted h => exact hstep h

/-! ## Outcomes -/

theorem StepsCalls.outcomes_eq {hooks : Hooks World} {registry : Registry World} {steps : List Step}
    {σ σ' : Scene World} {calls : List Call} {outcomes : List Outcome}
    (h : StepsCalls hooks registry steps σ calls outcomes σ') :
    ∃ passed halting skipped, outcomes =
        List.replicate passed .passed ++ Option.toList halting ++ List.replicate skipped .skipped ∧
      (∀ o ∈ halting, o.halts) ∧ (halting = none → skipped = 0) := by
  induction h with
  | done => exact ⟨0, none, 0, rfl, by simp, fun _ => rfl⟩
  | passed _ _ ih =>
    rcases ih with ⟨passed, halting, skipped, rfl, hhalts, hskipped⟩
    exact ⟨passed + 1, halting, skipped, rfl, hhalts, hskipped⟩
  | @halted _ steps _ _ _ o _ ho =>
    refine ⟨0, some o, steps.length, ?_, by simpa using ho, by simp⟩
    simp [List.map_const']

theorem StepsCalls.length_outcomes {hooks : Hooks World} {registry : Registry World} {steps : List Step}
    {σ σ' : Scene World} {calls : List Call} {outcomes : List Outcome}
    (h : StepsCalls hooks registry steps σ calls outcomes σ') : outcomes.length = steps.length := by
  induction h with
  | done => rfl
  | passed _ _ ih => rw [List.length_cons, ih, List.length_cons]
  | halted => rw [List.length_cons, List.length_map, List.length_cons]

namespace ScenarioReport

section
variable {r : ScenarioReport} {passed skipped : Nat} {halting : Option Outcome}
  (houtcomes : r.steps.map (·.outcome) =
    List.replicate passed .passed ++ Option.toList halting ++ List.replicate skipped .skipped)
  (hhalts : ∀ o ∈ halting, o.halts) (hskipped : r.hookFailures = [] → halting = none → skipped = 0)
include houtcomes hhalts hskipped

/-- A scenario is not skipped: where its steps are, a hook before them has failed. -/
theorem status_ne_skipped : r.status ≠ .skipped := by
  rw [Ne, status_eq_skipped_iff, Ne, status_eq_failed_iff]
  rintro ⟨hfailed, hne, hall⟩
  have hhooks : r.hookFailures = [] := Classical.not_not.1 (not_or.1 hfailed).1
  have hall' : ∀ o ∈ r.steps.map (·.outcome), o = .skipped := by simpa using hall
  rw [houtcomes] at hall'
  have hhalting : halting = none := by
    rw [Option.eq_none_iff_forall_ne_some]
    rintro o rfl
    have ho := hall' o (by simp)
    rw [ho] at hhalts
    exact absurd (hhalts _ rfl) (by decide)
  have hpassed : passed = 0 := by
    cases passed with
    | zero => rfl
    | succ n => exact absurd (hall' .passed (by simp)) (by simp)
  rw [hhalting, hpassed, hskipped hhooks hhalting] at houtcomes
  exact hne (by simpa using houtcomes)

theorem status_eq_passed_iff :
    r.status = .passed ↔ (∀ x ∈ r.steps, x.outcome = .passed) ∧ r.hookFailures = [] := by
  constructor
  · intro h
    have hfailed := mt r.status_eq_failed_iff.2 (by rw [h]; simp)
    have hundefined := mt r.status_eq_undefined_iff.2 (by rw [h]; simp)
    have hhooks : r.hookFailures = [] := Classical.not_not.1 (not_or.1 hfailed).1
    have hstatus : ∀ o ∈ r.steps.map (·.outcome), ¬ o.halts := by
      intro o ho hhalts
      rcases List.mem_map.1 ho with ⟨x, hx, rfl⟩
      rcases Bool.or_eq_true_iff.1 hhalts with ho | ho
      · exact hfailed (Or.inr ⟨x, hx, of_decide_eq_true ho⟩)
      · exact hundefined ⟨by rw [h]; simp, x, hx, of_decide_eq_true ho⟩
    -- A step that halts the scenario fails it or leaves it undefined.
    have hhalting : halting = none := by
      rw [Option.eq_none_iff_forall_ne_some]
      rintro o rfl
      exact hstatus o (by rw [houtcomes]; simp) (hhalts o rfl)
    rw [hhalting, hskipped hhooks hhalting] at houtcomes
    refine ⟨fun x hx => ?_, hhooks⟩
    have hx' := List.mem_map_of_mem (f := StepReport.outcome) hx
    rw [houtcomes, Option.toList_none, List.append_nil, List.replicate_zero, List.append_nil] at hx'
    exact (List.mem_replicate.1 hx').2
  · rintro ⟨hall, hhooks⟩
    have hnot : ∀ x ∈ r.steps, ∀ status, x.outcome.status = status → status = .passed := by
      rintro x hx _ rfl
      rw [hall x hx]
      rfl
    have hskip := status_ne_skipped houtcomes hhalts hskipped
    cases hstatus : r.status with
    | passed => rfl
    | failed =>
      rcases r.status_eq_failed_iff.1 hstatus with h | ⟨x, hx, h⟩
      · exact absurd hhooks h
      · exact hnot x hx _ h
    | undefined =>
      rcases (r.status_eq_undefined_iff.1 hstatus).2 with ⟨x, hx, h⟩
      exact hnot x hx _ h
    | skipped => exact absurd hstatus hskip

end

end ScenarioReport

namespace ScenarioCalls

section
variable {hooks : Hooks World} {registry : Registry World} {scenario : Scenario} {steps : List Step}
  {σ σ' : Scene World} {calls : List Call} {outcomes : List Outcome} {failures : List ExecutionError}

theorem length_outcomes (h : ScenarioCalls hooks registry scenario steps σ calls outcomes failures σ') :
    outcomes.length = steps.length := by
  cases h with
  | barred => exact List.length_map _
  | called _ hsteps => exact hsteps.length_outcomes

/-- Where a hook before the scenario fails, every step is skipped; otherwise a step is skipped only after
one that halts the scenario. -/
theorem outcomes_eq (h : ScenarioCalls hooks registry scenario steps σ calls outcomes failures σ') :
    ∃ passed halting skipped, outcomes =
        List.replicate passed .passed ++ Option.toList halting ++ List.replicate skipped .skipped ∧
      (∀ o ∈ halting, o.halts) ∧
      ((∃ c ∈ calls, c.FailsAt .beforeScenario) → passed = 0 ∧ halting = none) ∧
      ((¬ ∃ c ∈ calls, c.FailsAt .beforeScenario) → halting = none → skipped = 0) := by
  cases h with
  | barred hbefore hafter =>
    rcases (hbefore.failsAt_iff .beforeScenario).2 ⟨rfl, _, rfl⟩ with ⟨c, hc, hfails⟩
    refine ⟨0, none, steps.length, ?_, by simp, fun _ => ⟨rfl, rfl⟩, fun hnone => ?_⟩
    · simp [List.map_const']
    · exact absurd ⟨c, List.mem_append_left _ hc, hfails⟩ hnone
  | called hbefore hsteps hafter =>
    rcases hsteps.outcomes_eq with ⟨passed, halting, skipped, houtcomes, hhalts, hskipped⟩
    refine ⟨passed, halting, skipped, houtcomes, hhalts, ?_, fun _ => hskipped⟩
    rintro ⟨c, hc, hfails⟩
    rcases List.mem_append.1 hc with hc | hc
    · rcases List.mem_append.1 hc with hc | hc
      · rcases ((hbefore.failsAt_iff _).1 ⟨c, hc, hfails⟩).2 with ⟨e, he⟩
        cases he
      · exact absurd ⟨c, hc, hfails⟩ (hsteps.not_failsAt (Or.inl rfl))
    · cases ((hafter.failsAt_iff _).1 ⟨c, hc, hfails⟩).1

theorem mem_failures_iff (h : ScenarioCalls hooks registry scenario steps σ calls outcomes failures σ')
    (x : ExecutionError) : x ∈ failures ↔
      (∃ e, x = .hook .beforeScenario e ∨ x = .hook .afterScenario e) ∧ ∃ c ∈ calls, c.Causes x := by
  -- Hooks around the scenario have run in both cases; only in the second could a step have failed.
  cases h with
  | @barred _ _ before after e result hbefore hafter =>
    have hmem : x ∈ .hook .beforeScenario e :: (hookFailure? .afterScenario result).toList ↔
        (∃ c ∈ before, c.Causes x) ∨ ∃ c ∈ after, c.Causes x := by
      rw [← hbefore.mem_hookFailure?, ← hafter.mem_hookFailure?, ← List.mem_append]
      rfl
    rw [hmem]
    constructor
    · rintro (⟨c, hc, hx⟩ | ⟨c, hc, hx⟩)
      · rcases exists_of_mem_hookFailure? ((hbefore.mem_hookFailure? x).2 ⟨c, hc, hx⟩) with ⟨e, he⟩
        exact ⟨⟨e, Or.inl he⟩, c, List.mem_append_left _ hc, hx⟩
      · rcases exists_of_mem_hookFailure? ((hafter.mem_hookFailure? x).2 ⟨c, hc, hx⟩) with ⟨e, he⟩
        exact ⟨⟨e, Or.inr he⟩, c, List.mem_append_right _ hc, hx⟩
    · rintro ⟨-, c, hc, hx⟩
      rcases List.mem_append.1 hc with hc | hc
      · exact Or.inl ⟨c, hc, hx⟩
      · exact Or.inr ⟨c, hc, hx⟩
  | @called _ _ _ before between after _ result hbefore hsteps hafter =>
    rw [hafter.mem_hookFailure?]
    constructor
    · rintro ⟨c, hc, hx⟩
      rcases exists_of_mem_hookFailure? ((hafter.mem_hookFailure? x).2 ⟨c, hc, hx⟩) with ⟨e, he⟩
      exact ⟨⟨e, Or.inr he⟩, c, List.mem_append_right _ hc, hx⟩
    · rintro ⟨⟨e, he⟩, c, hc, hx⟩
      rcases List.mem_append.1 hc with hc | hc
      · rcases List.mem_append.1 hc with hc | hc
        · exact absurd ((hbefore.mem_hookFailure? x).2 ⟨c, hc, hx⟩) (by simp [hookFailure?, failure?])
        · rcases he with rfl | rfl
          · exact absurd ⟨c, hc, Call.failsAt_iff.2 ⟨e, hx⟩⟩ (hsteps.not_failsAt (Or.inl rfl))
          · exact absurd ⟨c, hc, Call.failsAt_iff.2 ⟨e, hx⟩⟩ (hsteps.not_failsAt (Or.inr rfl))
      · exact ⟨c, hc, hx⟩

theorem failures_ne_nil_iff
    (h : ScenarioCalls hooks registry scenario steps σ calls outcomes failures σ') :
    failures ≠ [] ↔ ∃ c ∈ calls, c.FailsAt .beforeScenario ∨ c.FailsAt .afterScenario := by
  have hne : failures ≠ [] ↔ ∃ x, x ∈ failures :=
    ⟨List.exists_mem_of_ne_nil failures, fun ⟨_, hx⟩ => List.ne_nil_of_mem hx⟩
  rw [hne]
  simp only [h.mem_failures_iff, Call.failsAt_iff]
  constructor
  · rintro ⟨_, ⟨e, rfl | rfl⟩, c, hc, hcauses⟩
    · exact ⟨c, hc, Or.inl ⟨e, hcauses⟩⟩
    · exact ⟨c, hc, Or.inr ⟨e, hcauses⟩⟩
  · rintro ⟨c, hc, ⟨e, hcauses⟩ | ⟨e, hcauses⟩⟩
    · exact ⟨_, ⟨e, Or.inl rfl⟩, c, hc, hcauses⟩
    · exact ⟨_, ⟨e, Or.inr rfl⟩, c, hc, hcauses⟩

end

end ScenarioCalls

namespace Runner

theorem runScenario_eq (r : Runner World) (s : Session World) (background : Option Background)
    (scenario : Scenario) (tags : List String) (hreal : r.settings.dryRun = false) :
    ∃ outcomes failures s' calls, r.runScenario s background scenario tags =
        (⟨scenario.name, tags, scenario.location,
          StepReport.ofOutcomes (scenario.stepsAfter background) outcomes, failures⟩, s') ∧
      s'.calls = s.calls ++ calls ∧
      ScenarioCalls r.hooks s.registry scenario (scenario.stepsAfter background) s.forget.scene calls
        outcomes failures s'.scene := by
  let s₁ := (s.log [⟨.debug, "running scenario",
    [("scenario", scenario.name), ("dry_run", toString r.settings.dryRun)]⟩]).forget
  rcases r.perform_spec s₁ scenario (scenario.stepsAfter background) with ⟨calls, hcalls, hreaches⟩
  refine ⟨_, _, (r.perform s₁ scenario (scenario.stepsAfter background)).2.2, calls, ?_,
    hreaches.calls, hcalls⟩
  unfold runScenario
  dsimp only
  rw [if_neg (by rw [hreal]; exact Bool.false_ne_true)]

end Runner

/-- What is called of a scenario that does not only look its steps up, and what is reported of it. -/
theorem Runner.runScenario_lifecycle (r : Runner World) (s : Session World)
    (background : Option Background) (scenario : Scenario) (tags : List String)
    (hreal : r.settings.dryRun = false) :
    ∃ report s' calls, r.runScenario s background scenario tags = (report, s') ∧
      s'.calls = s.calls ++ calls ∧
      ScenarioCalls r.hooks s.registry scenario (scenario.stepsAfter background) s.forget.scene calls
        (report.steps.map (·.outcome)) report.hookFailures s'.scene ∧
      report.steps.map (fun x => (x.keyword, x.text, x.location)) =
        (scenario.stepsAfter background).map (fun x => (x.keyword, x.text, x.location)) ∧
      (∃ passed halting skipped, report.steps.map (·.outcome) =
          List.replicate passed .passed ++ Option.toList halting ++ List.replicate skipped .skipped ∧
        (∀ o ∈ halting, o.halts) ∧
        ((∃ c ∈ calls, c.FailsAt .beforeScenario) → passed = 0 ∧ halting = none) ∧
        ((¬ ∃ c ∈ calls, c.FailsAt .beforeScenario) → halting = none → skipped = 0)) ∧
      (∀ i, report.steps[i]?.map (·.resolved) = (scenario.stepsAfter background)[i]?.map fun _ =>
        StepKeyword.nearest (((scenario.stepsAfter background).take (i + 1)).map (·.keyword))) ∧
      (report.status = .passed ↔ (∀ x ∈ report.steps, x.outcome = .passed) ∧
        ¬ ∃ c ∈ calls, c.FailsAt .beforeScenario ∨ c.FailsAt .afterScenario) ∧
      report.status ≠ .skipped := by
  rcases r.runScenario_eq s background scenario tags hreal with
    ⟨outcomes, failures, s', calls, hrun, hcalls, hscenario⟩
  have hlength := hscenario.length_outcomes
  have houtcomes := StepReport.map_outcome_ofOutcomes hlength
  rcases hscenario.outcomes_eq with ⟨passed, halting, skipped, hshape, hhalts, hbarred, hskipped⟩
  -- No hook around the scenario has failed, so a skipped step stands behind one that halts.
  have hskipped' : failures = [] → halting = none → skipped = 0 := by
    refine fun hnil => hskipped ?_
    rintro ⟨c, hc, hfails⟩
    exact hscenario.failures_ne_nil_iff.2 ⟨c, hc, Or.inl hfails⟩ hnil
  refine ⟨_, s', calls, hrun, hcalls, ?_, StepReport.map_written_ofOutcomes hlength, ?_, ?_, ?_, ?_⟩
  · rw [houtcomes]
    exact hscenario
  · rw [houtcomes]
    exact hscenario.outcomes_eq
  · exact StepReport.getElem?_resolved_ofOutcomes hlength
  · rw [ScenarioReport.status_eq_passed_iff (houtcomes.trans hshape) hhalts hskipped']
    rw [← hscenario.failures_ne_nil_iff, Classical.not_not]
  · exact ScenarioReport.status_ne_skipped (houtcomes.trans hshape) hhalts hskipped'

/-- A step passes, the next is undefined, and so the last is skipped; the hook behind the scenario is
called all the same. -/
theorem Runner.runScenario_lifecycle_of_undefined_step :
    ∃ (r : Runner Nat) (s : Session Nat) (scenario : Scenario) (report : ScenarioReport)
      (s' : Session Nat) (calls : List Call), r.settings.dryRun = false ∧
      scenario.steps.map (·.text) = ["a 2", "b", "a 3"] ∧
      r.runScenario s none scenario [] = (report, s') ∧ s'.calls = s.calls ++ calls ∧
      ScenarioCalls r.hooks s.registry scenario (scenario.stepsAfter none) s.forget.scene calls
        (report.steps.map (·.outcome)) report.hookFailures s'.scene ∧
      report.steps.map (·.outcome.status) = [.passed, .undefined, .skipped] ∧
      report.steps.map (·.resolved) = [.given, .when, .when] ∧ s'.scene.world = 11 ∧
      report.status ≠ .skipped := by
  let handler : Handler Nat := fun _ σ => (.ok (), { σ with world := σ.world + 1 })
  let s : Session Nat :=
    { registry := .push {} (Registration.definition ⟨none, "a \x7bint\x7d", handler, ⟨"steps", 1⟩⟩
        (.ofParts "a \x7bint\x7d" [.literal 'a', .literal ' ', .slot .int]))
      scene := ⟨.empty, 0⟩ }
  let r : Runner Nat :=
    { hooks := { afterScenario := [fun _ σ => (.ok (), { σ with world := σ.world + 10 })] } }
  let scenario : Scenario := ⟨"", none, [],
    [⟨.and, "a 2", none, none, .start⟩, ⟨.when, "b", none, none, .start⟩, ⟨.but, "a 3", none, none, .start⟩],
    .start⟩
  have hstatuses : (r.runScenario s none scenario []).1.steps.map (·.outcome.status) =
      [.passed, .undefined, .skipped] := by decide +kernel
  have hresolved : (r.runScenario s none scenario []).1.steps.map (·.resolved) =
      [.given, .when, .when] := by decide +kernel
  have hworld : (r.runScenario s none scenario []).2.scene.world = 11 := by decide +kernel
  rcases r.runScenario_lifecycle s none scenario [] rfl with
    ⟨report, s', calls, hrun, hcalls, hscenario, -, -, -, -, hskipped⟩
  rw [hrun] at hstatuses hresolved hworld
  exact ⟨r, s, scenario, report, s', calls, rfl, rfl, hrun, hcalls, hscenario, hstatuses, hresolved,
    hworld, hskipped⟩

end Gherkin
