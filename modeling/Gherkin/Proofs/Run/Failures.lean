import Gherkin.Proofs.Run.Lifecycle

/-!
# Failures that are reported

Which of the calls that fail in a scenario stand in its report, and when the scenario counts as failed for
them.  All do except those of the hooks behind a step that halts the scenario without them.
-/

namespace Gherkin

def Outcome.cause? : Outcome → Option ExecutionError
  | .failed e => some e
  | .passed | .undefined _ | .skipped => none

/-- The errors that a scenario reports: those of its steps, then those of the hooks around it. -/
def ScenarioReport.failures (r : ScenarioReport) : List ExecutionError :=
  (r.steps.map (·.outcome)).filterMap Outcome.cause? ++ r.hookFailures

/-- The step halts its scenario, and not for a hook: it is undefined, or its handler fails or cannot be
called. -/
def Outcome.HaltsItself : Outcome → Prop
  | .undefined _ => True
  | .failed (.hook _ _) => False
  | .failed _ => True
  | .passed | .skipped => False

theorem Outcome.cause?_eq_some_iff {o : Outcome} {x : ExecutionError} :
    o.cause? = some x ↔ o = .failed x := by
  cases o <;> simp [cause?]

theorem Outcome.HaltsItself.halts {o : Outcome} (h : o.HaltsItself) : o.halts := by
  cases o with
  | undefined | failed => rfl
  | passed | skipped => exact h.elim

theorem ScenarioReport.mem_failures {r : ScenarioReport} {x : ExecutionError} :
    x ∈ r.failures ↔ .failed x ∈ r.steps.map (·.outcome) ∨ x ∈ r.hookFailures := by
  unfold failures
  rw [List.mem_append, List.mem_filterMap]
  simp only [Outcome.cause?_eq_some_iff, exists_eq_right]

theorem ScenarioReport.status_eq_failed_iff_exists (r : ScenarioReport) :
    r.status = .failed ↔ ∃ x, x ∈ r.failures := by
  rw [status_eq_failed_iff]
  simp only [mem_failures, Outcome.status_eq_failed_iff, List.mem_map]
  constructor
  · rintro (hne | ⟨y, hy, x, hx⟩)
    · rcases List.exists_mem_of_ne_nil _ hne with ⟨x, hx⟩
      exact ⟨x, Or.inr hx⟩
    · exact ⟨x, Or.inl ⟨y, hy, hx⟩⟩
  · rintro ⟨x, ⟨y, hy, hx⟩ | hx⟩
    · exact Or.inr ⟨y, hy, x, hx⟩
    · exact Or.inl (List.ne_nil_of_mem hx)

/-! ## From the calls to the report -/

/-- What is caused by a hook behind a step is no halt of the step itself. -/
theorem Call.FailsAt.not_haltsItself {c : Call} (h : c.FailsAt .afterStep) {x : ExecutionError}
    (hx : c.Causes x) : ¬ (Outcome.failed x).HaltsItself := by
  rcases h with ⟨index, e, rfl⟩
  cases x with
  | hook => exact not_false
  | step | undefined | conversion => simp [Call.Causes] at hx

variable {World : Type} {hooks : Hooks World} {registry : Registry World} {σ σ' : Scene World}
  {calls : List Call}

theorem HookCalls.exists_causes {point : HookPoint} {index : Nat} {effects : List (Effect World)}
    {result : Except StepError Unit} (h : HookCalls point index effects σ calls result σ') {c : Call}
    (hc : c ∈ calls) {e : StepError} (he : c.error = some e) :
    result = .error e ∧ c.Causes (.hook point e) ∧ c.FailsAt point := by
  induction h with
  | done => simp at hc
  | passed _ _ ih =>
    rcases List.mem_cons.1 hc with rfl | hc
    · simp at he
    · exact ih hc
  | failed =>
    rw [List.mem_singleton.1 hc] at he ⊢
    obtain rfl := Option.some.inj he
    exact ⟨rfl, ⟨_, rfl⟩, _, _, rfl⟩

/-- A handler that fails makes its step fail. -/
theorem HandlerCalls.exists_causes {step : Step} {o : Outcome}
    (h : HandlerCalls registry step σ calls o σ') {c : Call} (hc : c ∈ calls) {e : StepError}
    (he : c.error = some e) : ∃ x, o = .failed x ∧ c.Causes x := by
  cases h with
  | undefined | unconverted => simp at hc
  | passed =>
    rw [List.mem_singleton.1 hc] at he
    simp at he
  | failed =>
    rw [List.mem_singleton.1 hc] at he ⊢
    obtain rfl := Option.some.inj he
    exact ⟨_, rfl, rfl⟩

theorem HandlerCalls.haltsItself {step : Step} {o : Outcome}
    (h : HandlerCalls registry step σ calls o σ') (ho : o ≠ .passed) : o.HaltsItself := by
  cases h with
  | passed => exact absurd rfl ho
  | undefined | unconverted | failed => trivial

/-- A call of a step that fails makes the step fail, unless it is one of a hook behind a step that halts
the scenario itself. -/
theorem StepCalls.exists_causes {step : Step} {o : Outcome}
    (h : StepCalls hooks registry step σ calls o σ') {c : Call} (hc : c ∈ calls) {e : StepError}
    (he : c.error = some e) :
    (∃ x, o = .failed x ∧ c.Causes x) ∨ (c.FailsAt .afterStep ∧ o.HaltsItself) := by
  cases h with
  | barred hbefore =>
    rcases hbefore.exists_causes hc he with ⟨hresult, hcauses, -⟩
    obtain rfl := Except.error.inj hresult
    exact Or.inl ⟨_, rfl, hcauses⟩
  | @called _ _ _ _ _ _ own result hbefore hown hafter =>
    rcases List.mem_append.1 hc with hc | hc
    · rcases List.mem_append.1 hc with hc | hc
      · cases (hbefore.exists_causes hc he).1
      · rcases hown.exists_causes hc he with ⟨x, rfl, hcauses⟩
        refine Or.inl ⟨x, ?_, hcauses⟩
        cases result with
        | ok => rfl
        | error e => exact Outcome.after_error_of_ne_passed (by simp) e
    · rcases hafter.exists_causes hc he with ⟨rfl, hcauses, hfails⟩
      by_cases hpassed : own = .passed
      · exact Or.inl ⟨_, if_pos hpassed, hcauses⟩
      · -- The step has halted the scenario already, and the hook's failure changes nothing.
        rw [Outcome.after_error_of_ne_passed hpassed]
        exact Or.inr ⟨hfails, hown.haltsItself hpassed⟩

theorem StepsCalls.exists_causes {steps : List Step} {outcomes : List Outcome}
    (h : StepsCalls hooks registry steps σ calls outcomes σ') {c : Call} (hc : c ∈ calls)
    {e : StepError} (he : c.error = some e) :
    (∃ x, .failed x ∈ outcomes ∧ c.Causes x) ∨
      (c.FailsAt .afterStep ∧ ∃ o ∈ outcomes, o.HaltsItself) := by
  induction h with
  | done => simp at hc
  | passed hstep _ ih =>
    rcases List.mem_append.1 hc with hc | hc
    · rcases hstep.exists_causes hc he with ⟨x, hx, -⟩ | ⟨-, hx⟩
      · cases hx
      · exact hx.elim
    · rcases ih hc with ⟨x, hx, hcauses⟩ | ⟨hfails, o, ho, hhalts⟩
      · exact Or.inl ⟨x, List.mem_cons_of_mem _ hx, hcauses⟩
      · exact Or.inr ⟨hfails, o, List.mem_cons_of_mem _ ho, hhalts⟩
  | halted hstep =>
    rcases hstep.exists_causes hc he with ⟨x, rfl, hcauses⟩ | ⟨hfails, hhalts⟩
    · exact Or.inl ⟨x, List.mem_cons_self, hcauses⟩
    · exact Or.inr ⟨hfails, _, List.mem_cons_self, hhalts⟩

namespace ScenarioCalls

variable {scenario : Scenario} {steps : List Step} {outcomes : List Outcome}
  {failures : List ExecutionError}

/-- A call that fails is reported, unless it is one of a hook behind a step that halts the scenario
itself. -/
theorem exists_causes (h : ScenarioCalls hooks registry scenario steps σ calls outcomes failures σ')
    {c : Call} (hc : c ∈ calls) {e : StepError} (he : c.error = some e) :
    (∃ x, (.failed x ∈ outcomes ∨ x ∈ failures) ∧ c.Causes x) ∨
      (c.FailsAt .afterStep ∧ ∃ o ∈ outcomes, o.HaltsItself) := by
  -- What the hooks around the scenario cause is listed with the scenario itself.
  have hhook : ∀ {point : HookPoint}, point = .beforeScenario ∨ point = .afterScenario →
      c.Causes (.hook point e) → ∃ x, (.failed x ∈ outcomes ∨ x ∈ failures) ∧ c.Causes x := by
    intro point hpoint hcauses
    refine ⟨_, Or.inr ((h.mem_failures_iff _).2 ⟨⟨e, ?_⟩, c, hc, hcauses⟩), hcauses⟩
    rcases hpoint with rfl | rfl
    · exact Or.inl rfl
    · exact Or.inr rfl
  cases h with
  | barred hbefore hafter =>
    rcases List.mem_append.1 hc with hc | hc
    · exact Or.inl (hhook (Or.inl rfl) (hbefore.exists_causes hc he).2.1)
    · exact Or.inl (hhook (Or.inr rfl) (hafter.exists_causes hc he).2.1)
  | called hbefore hsteps hafter =>
    rcases List.mem_append.1 hc with hc | hc
    · rcases List.mem_append.1 hc with hc | hc
      · exact Or.inl (hhook (Or.inl rfl) (hbefore.exists_causes hc he).2.1)
      · refine (hsteps.exists_causes hc he).imp_left ?_
        rintro ⟨x, hx, hcauses⟩
        exact ⟨x, Or.inl hx, hcauses⟩
    · exact Or.inl (hhook (Or.inr rfl) (hafter.exists_causes hc he).2.1)

theorem eq_of_halts (h : ScenarioCalls hooks registry scenario steps σ calls outcomes failures σ')
    {o o' : Outcome} (ho : o ∈ outcomes) (ho' : o' ∈ outcomes) (hhalts : o.halts) (hhalts' : o'.halts) :
    o = o' := by
  rcases h.outcomes_eq with ⟨passed, halting, skipped, rfl, -, -, -⟩
  have hmem : ∀ o : Outcome, o.halts → o ∈ List.replicate passed Outcome.passed ++ halting.toList ++
      List.replicate skipped .skipped → o ∈ halting := by
    intro o hhalts ho
    rcases List.mem_append.1 ho with ho | ho
    · rcases List.mem_append.1 ho with ho | ho
      · rw [(List.mem_replicate.1 ho).2] at hhalts
        cases hhalts
      · exact Option.mem_toList.1 ho
    · rw [(List.mem_replicate.1 ho).2] at hhalts
      cases hhalts
  exact Option.mem_unique (hmem o hhalts ho) (hmem o' hhalts' ho')

/-- Where a step halts the scenario itself, no failure of a hook behind a step is reported. -/
theorem not_causes (h : ScenarioCalls hooks registry scenario steps σ calls outcomes failures σ')
    {c : Call} (hfails : c.FailsAt .afterStep) {o : Outcome} (ho : o ∈ outcomes)
    (hhalts : o.HaltsItself) {x : ExecutionError} (hx : .failed x ∈ outcomes ∨ x ∈ failures) :
    ¬ c.Causes x := by
  intro hcauses
  rcases hx with hx | hx
  · obtain rfl := h.eq_of_halts ho hx hhalts.halts rfl
    exact hfails.not_haltsItself hcauses hhalts
  · rcases hfails with ⟨i, e, rfl⟩
    rcases ((h.mem_failures_iff x).1 hx).1 with ⟨e', rfl | rfl⟩ <;> simp [Call.Causes] at hcauses

end ScenarioCalls

/-- Exactly the failures of hooks behind a step that halts the scenario itself are not reported, and the
scenario has failed where a failure is reported. -/
theorem Runner.reported_iff (r : Runner World) (s : Session World) (background : Option Background)
    (scenario : Scenario) (tags : List String) (hreal : r.settings.dryRun = false) :
    ∃ report s' calls, r.runScenario s background scenario tags = (report, s') ∧
      s'.calls = s.calls ++ calls ∧
      (∀ c ∈ calls, ∀ e, c.error = some e → ((∃ x ∈ report.failures, c.Causes x) ↔
        ¬ (c.FailsAt .afterStep ∧ ∃ o ∈ report.steps.map (·.outcome), o.HaltsItself))) ∧
      (report.status = .failed ↔ ∃ x, x ∈ report.failures) := by
  rcases r.runScenario_eq s background scenario tags hreal with
    ⟨outcomes, failures, s', calls, hrun, hcalls, hscenario⟩
  have houtcomes := StepReport.map_outcome_ofOutcomes hscenario.length_outcomes
  refine ⟨_, s', calls, hrun, hcalls, fun c hc e he => ?_, ScenarioReport.status_eq_failed_iff_exists _⟩
  simp only [ScenarioReport.mem_failures, houtcomes]
  constructor
  · rintro ⟨x, hx, hcauses⟩ ⟨hfails, o, ho, hself⟩
    exact hscenario.not_causes hfails ho hself hx hcauses
  · exact (hscenario.exists_causes hc he).resolve_right

/-- A handler passes and the hook behind its step fails: the failure is reported. -/
theorem Runner.reported_iff_of_passed_step :
    ∃ (r : Runner Nat) (s : Session Nat) (scenario : Scenario) (report : ScenarioReport)
      (s' : Session Nat) (c : Call), r.settings.dryRun = false ∧
      r.runScenario s none scenario [] = (report, s') ∧ c ∈ s'.calls ∧
      c = ⟨.hook .afterStep 0, some (.other "x")⟩ ∧ (∃ x ∈ report.failures, c.Causes x) ∧
      report.status = .failed := by
  let s : Session Nat :=
    { registry := .push {} (Registration.definition ⟨none, "a", fun _ σ => (.ok (), σ), ⟨"steps", 1⟩⟩
        (.ofParts "a" [.literal 'a']))
      scene := ⟨.empty, 0⟩ }
  let r : Runner Nat := { hooks := { afterStep := [fun _ σ => (.error (.other "x"), σ)] } }
  let scenario : Scenario := ⟨"", none, [], [⟨.given, "a", none, none, .start⟩], .start⟩
  have hlog : (r.runScenario s none scenario []).2.calls =
      [⟨.handler "a", none⟩, ⟨.hook .afterStep 0, some (.other "x")⟩] := by decide +kernel
  have houtcomes : (r.runScenario s none scenario []).1.steps.map (·.outcome) =
      [.failed (.hook .afterStep (.other "x"))] := by decide +kernel
  rcases r.reported_iff s none scenario [] rfl with ⟨report, s', calls, hrun, hcalls, hiff, hstatus⟩
  rw [hrun] at hlog houtcomes
  dsimp only at hlog houtcomes
  have hc : ⟨.hook .afterStep 0, some (.other "x")⟩ ∈ s'.calls := by rw [hlog]; simp
  have hreported := (hiff _ (by rw [hcalls] at hc; exact hc) _ rfl).2 (by
    rw [houtcomes]
    simp [Outcome.HaltsItself])
  exact ⟨r, s, scenario, report, s', _, rfl, hrun, hc, rfl, hreported,
    hstatus.2 (hreported.imp fun _ h => h.1)⟩

/-- The hook behind an undefined step fails, and the scenario is reported as undefined only. -/
theorem Runner.exists_failing_hook_unreported :
    ∃ (r : Runner Nat) (s : Session Nat) (scenario : Scenario) (report : ScenarioReport)
      (s' : Session Nat), r.settings.dryRun = false ∧
      r.runScenario s none scenario [] = (report, s') ∧
      s'.calls = [⟨.hook .afterStep 0, some (.other "x")⟩] ∧ report.failures = [] ∧
      report.status = .undefined :=
  let r : Runner Nat := { hooks := { afterStep := [fun _ σ => (.error (.other "x"), σ)] } }
  let s : Session Nat := { registry := {}, scene := ⟨.empty, 0⟩ }
  let scenario : Scenario := ⟨"", none, [], [⟨.given, "a", none, none, .start⟩], .start⟩
  ⟨r, s, scenario, _, _, rfl, rfl, by decide +kernel, by decide +kernel, by decide +kernel⟩

end Gherkin
