import Gherkin.Proofs.Run.Lifecycle

/-!
# Scenarios alone

Where handlers and hooks go by their arguments and the memory only, the calls of a scenario and what comes
out of them are settled by the memory that the scenario starts with.  Every scenario starts with an empty
one, so nothing that ran before it shows in its report.
-/

namespace Gherkin

variable {World : Type}

/-! ## Effects that go by the memory -/

/-- What the call returns, and the memory after it, depend on the memory before it and on nothing else in
the world. -/
def Effect.GoesByMemory (effect : Effect World) : Prop :=
  ∀ σ τ : Scene World, σ.memory = τ.memory →
    (effect σ).1 = (effect τ).1 ∧ (effect σ).2.memory = (effect τ).2.memory

def Registry.GoesByMemory (r : Registry World) : Prop :=
  ∀ d ∈ r.definitions, ∀ arguments, Effect.GoesByMemory (d.handler arguments)

structure Hooks.GoByMemory (h : Hooks World) : Prop where
  beforeScenario : ∀ hook ∈ h.beforeScenario, ∀ scenario, Effect.GoesByMemory (hook scenario)
  afterScenario : ∀ hook ∈ h.afterScenario, ∀ scenario, Effect.GoesByMemory (hook scenario)
  beforeStep : ∀ hook ∈ h.beforeStep, ∀ step, Effect.GoesByMemory (hook step)
  afterStep : ∀ hook ∈ h.afterStep, ∀ step, Effect.GoesByMemory (hook step)

namespace Registry

theorem winner_mem_of_contest {text : String} {best : Option (Contest World)} {index : Nat}
    {ds : List (Definition World)} {c : Contest World} (h : contest text best index ds = some c) :
    c.winner ∈ ds ∨ ∃ b ∈ best, c.winner = b.winner := by
  induction ds generalizing best index with
  | nil => exact Or.inr ⟨c, h, rfl⟩
  | cons d ds ih =>
    rw [contest] at h
    cases hcaptures : d.pattern.captures? text with
    | none =>
      rw [hcaptures] at h
      exact (ih h).imp_left (List.mem_cons_of_mem d)
    | some captures =>
      rw [hcaptures] at h
      rcases ih h with hmem | ⟨b, hb, hwinner⟩
      · exact Or.inl (List.mem_cons_of_mem d hmem)
      · rw [← Option.some.inj hb] at hwinner
        cases best with
        | none => exact Or.inl (hwinner ▸ List.mem_cons_self)
        | some best =>
          unfold contend at hwinner
          dsimp only at hwinner
          split at hwinner
          · exact Or.inl (hwinner ▸ List.mem_cons_self)
          · split at hwinner
            · exact Or.inr ⟨best, rfl, hwinner⟩
            · exact Or.inr ⟨best, rfl, hwinner⟩

theorem exists_handler_of_callFor {r : Registry World} {step : Step} {pattern : String}
    {effect : Effect World} (h : r.callFor step = .ok (some (pattern, effect))) :
    ∃ d ∈ r.definitions, ∃ arguments, effect = d.handler arguments := by
  unfold callFor find at h
  cases hresolve : r.resolve step.text with
  | none => simp [hresolve, Except.map] at h
  | some c =>
    rw [hresolve] at h
    dsimp only at h
    cases hvalues : Slot.values 0 (c.winner.pattern.slots.zip c.captures) with
    | error e => simp [hvalues, Except.map] at h
    | ok values =>
      have heffect : c.winner.handler ⟨values, step.table, step.docString⟩ = effect := by
        simp only [hvalues, Except.map, Option.map_some, Except.ok.injEq, Option.some.injEq,
          Prod.mk.injEq] at h
        exact h.2
      rcases winner_mem_of_contest hresolve with hmem | ⟨b, hb, -⟩
      · exact ⟨c.winner, hmem, _, heffect.symm⟩
      · simp at hb

theorem GoesByMemory.callFor {r : Registry World} (h : r.GoesByMemory) {step : Step} {pattern : String}
    {effect : Effect World} (hcall : r.callFor step = .ok (some (pattern, effect))) :
    Effect.GoesByMemory effect := by
  obtain ⟨d, hd, arguments, rfl⟩ := exists_handler_of_callFor hcall
  exact h d hd arguments

theorem GoesByMemory.congr {r r' : Registry World} (h : r.GoesByMemory) (hsame : r'.unmarked = r.unmarked) :
    r'.GoesByMemory := by
  intro d hd
  have hmem : d.unmarked ∈ r'.unmarked.definitions := List.mem_map.2 ⟨d, hd, rfl⟩
  rw [hsame] at hmem
  obtain ⟨d', hd', hunmarked⟩ := List.mem_map.1 hmem
  have hhandler : d'.unmarked.handler = d.unmarked.handler := by rw [hunmarked]
  rw [show d.handler = d'.handler from hhandler.symm]
  exact h d' hd'

end Registry

/-! ## Calls from the same memory -/

theorem HookCalls.settled {point : HookPoint} {index : Nat} {effects : List (Effect World)}
    (heffects : ∀ effect ∈ effects, Effect.GoesByMemory effect) {σ σ' τ τ' : Scene World}
    {calls calls' : List Call} {result result' : Except StepError Unit}
    (h : HookCalls point index effects σ calls result σ')
    (h' : HookCalls point index effects τ calls' result' τ') (hmemory : σ.memory = τ.memory) :
    calls = calls' ∧ result = result' ∧ σ'.memory = τ'.memory := by
  induction h generalizing τ calls' with
  | done =>
    cases h' with
    | done => exact ⟨rfl, rfl, hmemory⟩
  | passed hhook _ ih =>
    -- From one memory the hook returns the same in both runs, so both go on behind it or neither does.
    obtain ⟨hresult, hafter⟩ := heffects _ List.mem_cons_self _ _ hmemory
    rw [hhook] at hresult hafter
    cases h' with
    | passed hhook' hmore' =>
      rw [hhook'] at hafter
      obtain ⟨rfl, rfl, hend⟩ := ih (fun e he => heffects e (List.mem_cons_of_mem _ he)) hmore' hafter
      exact ⟨rfl, rfl, hend⟩
    | failed hhook' =>
      rw [hhook'] at hresult
      cases hresult
  | failed hhook =>
    obtain ⟨hresult, hafter⟩ := heffects _ List.mem_cons_self _ _ hmemory
    rw [hhook] at hresult hafter
    cases h' with
    | passed hhook' =>
      rw [hhook'] at hresult
      cases hresult
    | failed hhook' =>
      rw [hhook'] at hresult hafter
      obtain rfl := Except.error.inj hresult
      exact ⟨rfl, rfl, hafter⟩

/-- What is called for a step, its outcome and the scene after it, read off from what the registry has the
step call. -/
theorem HandlerCalls.eq_of_callFor {registry : Registry World} {step : Step} {σ σ' : Scene World}
    {calls : List Call} {o : Outcome} (h : HandlerCalls registry step σ calls o σ') :
    (calls, o, σ') = match registry.callFor step with
      | .ok none => ([], .undefined (suggest step.text), σ)
      | .error e => ([], .failed (.conversion step.text e), σ)
      | .ok (some (pattern, effect)) => ([⟨.handler pattern, failure? (effect σ).1⟩],
          .ofResult ((effect σ).1.mapError (.step step.text pattern)), (effect σ).2) := by
  cases h with
  | undefined hcall | unconverted hcall => rw [hcall]
  | passed hcall heffect | failed hcall heffect =>
    rw [hcall]
    dsimp only
    rw [heffect]
    rfl

theorem HandlerCalls.settled {registry : Registry World} (hregistry : registry.GoesByMemory) {step : Step}
    {σ σ' τ τ' : Scene World} {calls calls' : List Call} {o o' : Outcome}
    (h : HandlerCalls registry step σ calls o σ') (h' : HandlerCalls registry step τ calls' o' τ')
    (hmemory : σ.memory = τ.memory) : calls = calls' ∧ o = o' ∧ σ'.memory = τ'.memory := by
  have heq := h.eq_of_callFor
  have heq' := h'.eq_of_callFor
  cases hcall : registry.callFor step with
  | error e =>
    rw [hcall] at heq heq'
    cases heq
    cases heq'
    exact ⟨rfl, rfl, hmemory⟩
  | ok called? =>
    rw [hcall] at heq heq'
    cases called? with
    | none =>
      cases heq
      cases heq'
      exact ⟨rfl, rfl, hmemory⟩
    | some called =>
      obtain ⟨hresult, hafter⟩ := hregistry.callFor hcall _ _ hmemory
      cases heq
      cases heq'
      rw [hresult]
      exact ⟨rfl, rfl, hafter⟩

section
variable {hooks : Hooks World} (hhooks : hooks.GoByMemory) {registry : Registry World}
  (hregistry : registry.GoesByMemory) {σ σ' τ τ' : Scene World} {calls calls' : List Call}
include hhooks hregistry

theorem StepCalls.settled {step : Step} {o o' : Outcome} (h : StepCalls hooks registry step σ calls o σ')
    (h' : StepCalls hooks registry step τ calls' o' τ') (hmemory : σ.memory = τ.memory) :
    calls = calls' ∧ o = o' ∧ σ'.memory = τ'.memory := by
  have hbeforeStep : ∀ effect ∈ hooks.beforeStep.map (· step), Effect.GoesByMemory effect :=
    List.forall_mem_map.2 fun hook hhook => hhooks.beforeStep hook hhook step
  have hafterStep : ∀ effect ∈ hooks.afterStep.map (· step), Effect.GoesByMemory effect :=
    List.forall_mem_map.2 fun hook hhook => hhooks.afterStep hook hhook step
  cases h with
  | barred hbefore =>
    cases h' with
    | barred hbefore' =>
      obtain ⟨rfl, hresult, hend⟩ := hbefore.settled hbeforeStep hbefore' hmemory
      rw [Except.error.inj hresult]
      exact ⟨rfl, rfl, hend⟩
    | called hbefore' => cases (hbefore.settled hbeforeStep hbefore' hmemory).2.1
  | called hbefore hown hafter =>
    cases h' with
    | barred hbefore' => cases (hbefore.settled hbeforeStep hbefore' hmemory).2.1
    | called hbefore' hown' hafter' =>
      obtain ⟨rfl, -, hmemory₁⟩ := hbefore.settled hbeforeStep hbefore' hmemory
      obtain ⟨rfl, rfl, hmemory₂⟩ := hown.settled hregistry hown' hmemory₁
      obtain ⟨rfl, rfl, hend⟩ := hafter.settled hafterStep hafter' hmemory₂
      exact ⟨rfl, rfl, hend⟩

theorem StepsCalls.settled {steps : List Step} {outcomes outcomes' : List Outcome}
    (h : StepsCalls hooks registry steps σ calls outcomes σ')
    (h' : StepsCalls hooks registry steps τ calls' outcomes' τ') (hmemory : σ.memory = τ.memory) :
    calls = calls' ∧ outcomes = outcomes' ∧ σ'.memory = τ'.memory := by
  -- Along the steps: the same one halts the scenario in both runs.
  induction h generalizing τ calls' outcomes' with
  | done =>
    cases h' with
    | done => exact ⟨rfl, rfl, hmemory⟩
  | passed hstep _ ih =>
    cases h' with
    | passed hstep' hmore' =>
      obtain ⟨rfl, -, hmemory'⟩ := hstep.settled hhooks hregistry hstep' hmemory
      obtain ⟨rfl, rfl, hend⟩ := ih hmore' hmemory'
      exact ⟨rfl, rfl, hend⟩
    | halted hstep' ho =>
      rw [← (hstep.settled hhooks hregistry hstep' hmemory).2.1] at ho
      cases ho
  | halted hstep ho =>
    cases h' with
    | passed hstep' =>
      rw [(hstep.settled hhooks hregistry hstep' hmemory).2.1] at ho
      cases ho
    | halted hstep' =>
      obtain ⟨rfl, rfl, hend⟩ := hstep.settled hhooks hregistry hstep' hmemory
      exact ⟨rfl, rfl, hend⟩

theorem ScenarioCalls.settled {scenario : Scenario} {steps : List Step} {outcomes outcomes' : List Outcome}
    {failures failures' : List ExecutionError}
    (h : ScenarioCalls hooks registry scenario steps σ calls outcomes failures σ')
    (h' : ScenarioCalls hooks registry scenario steps τ calls' outcomes' failures' τ')
    (hmemory : σ.memory = τ.memory) : calls = calls' ∧ outcomes = outcomes' ∧ failures = failures' := by
  have hbeforeScenario : ∀ effect ∈ hooks.beforeScenario.map (· scenario), Effect.GoesByMemory effect :=
    List.forall_mem_map.2 fun hook hhook => hhooks.beforeScenario hook hhook scenario
  have hafterScenario : ∀ effect ∈ hooks.afterScenario.map (· scenario), Effect.GoesByMemory effect :=
    List.forall_mem_map.2 fun hook hhook => hhooks.afterScenario hook hhook scenario
  cases h with
  | barred hbefore hafter =>
    cases h' with
    | barred hbefore' hafter' =>
      obtain ⟨rfl, hresult, hmemory₁⟩ := hbefore.settled hbeforeScenario hbefore' hmemory
      obtain ⟨rfl, rfl, -⟩ := hafter.settled hafterScenario hafter' hmemory₁
      rw [Except.error.inj hresult]
      exact ⟨rfl, rfl, rfl⟩
    | called hbefore' => cases (hbefore.settled hbeforeScenario hbefore' hmemory).2.1
  | called hbefore hsteps hafter =>
    cases h' with
    | barred hbefore' => cases (hbefore.settled hbeforeScenario hbefore' hmemory).2.1
    | called hbefore' hsteps' hafter' =>
      obtain ⟨rfl, -, hmemory₁⟩ := hbefore.settled hbeforeScenario hbefore' hmemory
      obtain ⟨rfl, rfl, hmemory₂⟩ := hsteps.settled hhooks hregistry hsteps' hmemory₁
      obtain ⟨rfl, rfl, -⟩ := hafter.settled hafterScenario hafter' hmemory₂
      exact ⟨rfl, rfl, rfl⟩

end

/-! ## Scenarios from any session -/

namespace Registry

theorem accepts_unmarked (r : Registry World) (text : String) : r.unmarked.accepts text = r.accepts text := by
  unfold accepts unmarked
  rw [List.any_map]
  rfl

theorem accepts_congr {r r' : Registry World} (h : r.unmarked = r'.unmarked) (text : String) :
    r.accepts text = r'.accepts text := by
  rw [← accepts_unmarked, h, accepts_unmarked]

end Registry

namespace Runner

/-- A scenario that only looks its steps up calls nothing and leaves no mark. -/
theorem runScenario_dry (r : Runner World) (s : Session World) (background : Option Background)
    (scenario : Scenario) (tags : List String) (hdry : r.settings.dryRun = true) :
    r.runScenario s background scenario tags =
      (⟨scenario.name, tags, scenario.location,
        StepReport.ofOutcomes (scenario.stepsAfter background)
          ((scenario.stepsAfter background).map fun step => .foresee s.registry step.text), []⟩,
        s.log [⟨.debug, "running scenario", [("scenario", scenario.name), ("dry_run", "true")]⟩]) := by
  unfold runScenario
  dsimp only
  rw [if_pos hdry, hdry]
  rfl

/-- Running a scenario changes a registry in marks only. -/
theorem unmarked_runScenario (r : Runner World) (s : Session World) (background : Option Background)
    (scenario : Scenario) (tags : List String) :
    (r.runScenario s background scenario tags).2.registry.unmarked = s.registry.unmarked := by
  cases hdry : r.settings.dryRun with
  | true =>
    rw [r.runScenario_dry s background scenario tags hdry]
    rfl
  | false =>
    let s₁ := (s.log [⟨.debug, "running scenario",
      [("scenario", scenario.name), ("dry_run", toString r.settings.dryRun)]⟩]).forget
    obtain ⟨_, -, hreaches⟩ := r.perform_spec s₁ scenario (scenario.stepsAfter background)
    unfold runScenario
    dsimp only
    rw [if_neg (by rw [hdry]; exact Bool.false_ne_true)]
    exact hreaches.registry

/-- The report of a scenario is the same from every session with the same definitions. -/
theorem runScenario_report_congr (r : Runner World) (hhooks : r.hooks.GoByMemory) {s s' : Session World}
    (hregistry : s.registry.GoesByMemory) (h : s.registry.unmarked = s'.registry.unmarked)
    (background : Option Background) (scenario : Scenario) (tags : List String) :
    (r.runScenario s background scenario tags).1 = (r.runScenario s' background scenario tags).1 := by
  cases hdry : r.settings.dryRun with
  | true =>
    have hforesee : ∀ text, Outcome.foresee s.registry text = Outcome.foresee s'.registry text := by
      intro text
      unfold Outcome.foresee
      rw [Registry.accepts_congr h]
    rw [r.runScenario_dry s background scenario tags hdry, r.runScenario_dry s' background scenario tags hdry]
    simp only [hforesee]
  | false =>
    obtain ⟨outcomes, failures, _, _, hrun, -, hcalls⟩ := r.runScenario_eq s background scenario tags hdry
    obtain ⟨outcomes', failures', _, _, hrun', -, hcalls'⟩ :=
      r.runScenario_eq s' background scenario tags hdry
    obtain ⟨-, rfl, rfl⟩ := hcalls.settled hhooks hregistry (hcalls'.congr h.symm) rfl
    rw [hrun, hrun']

end Runner

end Gherkin
