import Gherkin.Run.Scenario
import Gherkin.Proofs.Registry.Marks

/-!
# The calls of a run

The order in which a scenario calls hooks and handlers, said as a relation on scenes: what is called from
a scene, what comes out of it and the scene after it.  No session is in it, so nothing that a run keeps
for itself decides what is called.  A run goes through these calls.
-/

namespace Gherkin

variable {World : Type}

/-! ## The calls themselves -/

/-- The hooks at a point are called from the number `index` on, up to the first that fails. -/
inductive HookCalls (point : HookPoint) : Nat → List (Effect World) → Scene World → List Call →
    Except StepError Unit → Scene World → Prop
  | done {index : Nat} {σ : Scene World} : HookCalls point index [] σ [] (.ok ()) σ
  | passed {index : Nat} {hook : Effect World} {hooks : List (Effect World)} {σ σ' σ'' : Scene World}
      {calls : List Call} {result : Except StepError Unit} (h : hook σ = (.ok (), σ'))
      (hmore : HookCalls point (index + 1) hooks σ' calls result σ'') :
      HookCalls point index (hook :: hooks) σ (⟨.hook point index, none⟩ :: calls) result σ''
  | failed {index : Nat} {hook : Effect World} {hooks : List (Effect World)} {σ σ' : Scene World}
      {e : StepError} (h : hook σ = (.error e, σ')) :
      HookCalls point index (hook :: hooks) σ [⟨.hook point index, some e⟩] (.error e) σ'

/-- The handler of the definition that wins a step is called, if one wins and its arguments convert. -/
inductive HandlerCalls (registry : Registry World) (step : Step) : Scene World → List Call → Outcome →
    Scene World → Prop
  | undefined {σ : Scene World} (h : registry.callFor step = .ok none) :
      HandlerCalls registry step σ [] (.undefined (suggest step.text)) σ
  | unconverted {σ : Scene World} {e : ConversionError} (h : registry.callFor step = .error e) :
      HandlerCalls registry step σ [] (.failed (.conversion step.text e)) σ
  | passed {σ σ' : Scene World} {pattern : String} {handler : Effect World}
      (h : registry.callFor step = .ok (some (pattern, handler))) (hcall : handler σ = (.ok (), σ')) :
      HandlerCalls registry step σ [⟨.handler pattern, none⟩] .passed σ'
  | failed {σ σ' : Scene World} {pattern : String} {handler : Effect World} {e : StepError}
      (h : registry.callFor step = .ok (some (pattern, handler))) (hcall : handler σ = (.error e, σ')) :
      HandlerCalls registry step σ [⟨.handler pattern, some e⟩] (.failed (.step step.text pattern e)) σ'

/-- The outcome of a step after the hooks behind it: their failure counts if the step has passed. -/
def Outcome.after (own : Outcome) : Except StepError Unit → Outcome
  | .ok () => own
  | .error e => if own = .passed then .failed (.hook .afterStep e) else own

theorem Outcome.after_error_of_ne_passed {own : Outcome} (h : own ≠ .passed) (e : StepError) :
    own.after (.error e) = own := if_neg h

/-- A step is called between its hooks, unless a hook before it fails. -/
inductive StepCalls (hooks : Hooks World) (registry : Registry World) (step : Step) : Scene World →
    List Call → Outcome → Scene World → Prop
  | barred {σ σ' : Scene World} {calls : List Call} {e : StepError}
      (hbefore : HookCalls .beforeStep 0 (hooks.beforeStep.map (· step)) σ calls (.error e) σ') :
      StepCalls hooks registry step σ calls (.failed (.hook .beforeStep e)) σ'
  | called {σ σ₁ σ₂ σ' : Scene World} {before own after : List Call} {o : Outcome}
      {result : Except StepError Unit}
      (hbefore : HookCalls .beforeStep 0 (hooks.beforeStep.map (· step)) σ before (.ok ()) σ₁)
      (hown : HandlerCalls registry step σ₁ own o σ₂)
      (hafter : HookCalls .afterStep 0 (hooks.afterStep.map (· step)) σ₂ after result σ') :
      StepCalls hooks registry step σ (before ++ own ++ after) (o.after result) σ'

/-- Steps are called up to the first that halts the scenario. -/
inductive StepsCalls (hooks : Hooks World) (registry : Registry World) : List Step → Scene World →
    List Call → List Outcome → Scene World → Prop
  | done {σ : Scene World} : StepsCalls hooks registry [] σ [] [] σ
  | passed {step : Step} {steps : List Step} {σ σ' σ'' : Scene World} {calls more : List Call}
      {outcomes : List Outcome} (hstep : StepCalls hooks registry step σ calls .passed σ')
      (hmore : StepsCalls hooks registry steps σ' more outcomes σ'') :
      StepsCalls hooks registry (step :: steps) σ (calls ++ more) (.passed :: outcomes) σ''
  | halted {step : Step} {steps : List Step} {σ σ' : Scene World} {calls : List Call} {o : Outcome}
      (hstep : StepCalls hooks registry step σ calls o σ') (ho : o.halts) :
      StepsCalls hooks registry (step :: steps) σ calls (o :: steps.map fun _ => .skipped) σ'

def hookFailure? (point : HookPoint) (result : Except StepError Unit) : Option ExecutionError :=
  (failure? result).map (.hook point)

/-- The steps of a scenario are called between its hooks, unless a hook before them fails; the hooks
behind them are called in any case. -/
inductive ScenarioCalls (hooks : Hooks World) (registry : Registry World) (scenario : Scenario)
    (steps : List Step) : Scene World → List Call → List Outcome → List ExecutionError → Scene World →
    Prop
  | barred {σ σ₁ σ' : Scene World} {before after : List Call} {e : StepError}
      {result : Except StepError Unit}
      (hbefore : HookCalls .beforeScenario 0 (hooks.beforeScenario.map (· scenario)) σ before (.error e) σ₁)
      (hafter : HookCalls .afterScenario 0 (hooks.afterScenario.map (· scenario)) σ₁ after result σ') :
      ScenarioCalls hooks registry scenario steps σ (before ++ after) (steps.map fun _ => .skipped)
        (.hook .beforeScenario e :: (hookFailure? .afterScenario result).toList) σ'
  | called {σ σ₁ σ₂ σ' : Scene World} {before between after : List Call} {outcomes : List Outcome}
      {result : Except StepError Unit}
      (hbefore : HookCalls .beforeScenario 0 (hooks.beforeScenario.map (· scenario)) σ before (.ok ()) σ₁)
      (hsteps : StepsCalls hooks registry steps σ₁ between outcomes σ₂)
      (hafter : HookCalls .afterScenario 0 (hooks.afterScenario.map (· scenario)) σ₂ after result σ') :
      ScenarioCalls hooks registry scenario steps σ (before ++ between ++ after) outcomes
        (hookFailure? .afterScenario result).toList σ'

theorem HandlerCalls.congr {r r' : Registry World} (h : r.unmarked = r'.unmarked) {step : Step}
    {σ σ' : Scene World} {calls : List Call} {o : Outcome} (hcalls : HandlerCalls r step σ calls o σ') :
    HandlerCalls r' step σ calls o σ' := by
  have hcall := Registry.callFor_congr h step
  cases hcalls with
  | undefined h => exact .undefined (hcall ▸ h)
  | unconverted h => exact .unconverted (hcall ▸ h)
  | passed h hhandler => exact .passed (hcall ▸ h) hhandler
  | failed h hhandler => exact .failed (hcall ▸ h) hhandler

theorem StepCalls.congr {hooks : Hooks World} {r r' : Registry World} (h : r.unmarked = r'.unmarked)
    {step : Step} {σ σ' : Scene World} {calls : List Call} {o : Outcome}
    (hcalls : StepCalls hooks r step σ calls o σ') : StepCalls hooks r' step σ calls o σ' := by
  cases hcalls with
  | barred hbefore => exact .barred hbefore
  | called hbefore hown hafter => exact .called hbefore (hown.congr h) hafter

theorem StepsCalls.congr {hooks : Hooks World} {r r' : Registry World} (h : r.unmarked = r'.unmarked)
    {steps : List Step} {σ σ' : Scene World} {calls : List Call} {outcomes : List Outcome}
    (hcalls : StepsCalls hooks r steps σ calls outcomes σ') :
    StepsCalls hooks r' steps σ calls outcomes σ' := by
  induction hcalls with
  | done => exact .done
  | passed hstep _ ih => exact .passed (hstep.congr h) ih
  | halted hstep ho => exact .halted (hstep.congr h) ho

theorem ScenarioCalls.congr {hooks : Hooks World} {r r' : Registry World} (h : r.unmarked = r'.unmarked)
    {scenario : Scenario} {steps : List Step} {σ σ' : Scene World} {calls : List Call}
    {outcomes : List Outcome} {failures : List ExecutionError}
    (hcalls : ScenarioCalls hooks r scenario steps σ calls outcomes failures σ') :
    ScenarioCalls hooks r' scenario steps σ calls outcomes failures σ' := by
  cases hcalls with
  | barred hbefore hafter => exact .barred hbefore hafter
  | called hbefore hsteps hafter => exact .called hbefore (hsteps.congr h) hafter

theorem HandlerCalls.passed_or_halts {registry : Registry World} {step : Step} {σ σ' : Scene World}
    {calls : List Call} {o : Outcome} (h : HandlerCalls registry step σ calls o σ') :
    o = .passed ∨ o.halts := by
  cases h with
  | passed => exact Or.inl rfl
  | undefined | unconverted | failed => exact Or.inr rfl

theorem StepCalls.passed_or_halts {hooks : Hooks World} {registry : Registry World} {step : Step}
    {σ σ' : Scene World} {calls : List Call} {o : Outcome}
    (h : StepCalls hooks registry step σ calls o σ') : o = .passed ∨ o.halts := by
  cases h with
  | barred => exact Or.inr rfl
  | @called _ _ _ _ _ _ own result _ hown =>
    cases result with
    | ok => exact hown.passed_or_halts
    | error e =>
      refine Or.inr ?_
      by_cases hpassed : own = .passed
      · rw [hpassed]
        rfl
      · rw [Outcome.after_error_of_ne_passed hpassed]
        exact hown.passed_or_halts.resolve_left hpassed

/-! ## What a session goes through -/

namespace Session

/-- The second session is the first after some calls, and its registry differs in marks only. -/
structure Reaches (s s' : Session World) (calls : List Call) : Prop where
  calls : s'.calls = s.calls ++ calls
  registry : s'.registry.unmarked = s.registry.unmarked

theorem Reaches.refl (s : Session World) : s.Reaches s [] := ⟨(List.append_nil _).symm, rfl⟩

theorem Reaches.trans {s s' s'' : Session World} {calls more : List Call} (h : s.Reaches s' calls)
    (h' : s'.Reaches s'' more) : s.Reaches s'' (calls ++ more) :=
  ⟨by rw [h'.calls, h.calls, List.append_assoc], h'.registry.trans h.registry⟩

theorem Reaches.log {s s' : Session World} {calls : List Call} (h : s.Reaches s' calls)
    (events : List Event) : s.Reaches (s'.log events) calls := ⟨h.calls, h.registry⟩

theorem Reaches.call (s : Session World) (callee : Callee) (effect : Effect World) :
    s.Reaches (s.call callee effect).2 [⟨callee, failure? (effect s.scene).1⟩] := ⟨rfl, rfl⟩

theorem Reaches.find (s : Session World) (text : String) : s.Reaches (s.find text).2 [] :=
  ⟨(List.append_nil _).symm, Registry.unmarked_find s.registry text⟩

theorem callHooks_spec (s : Session World) (point : HookPoint) (index : Nat)
    (hooks : List (Effect World)) : ∃ calls result,
      HookCalls point index hooks s.scene calls result (s.callHooks point index hooks).2.scene ∧
        (s.callHooks point index hooks).1 = result.mapError (.hook point) ∧
        s.Reaches (s.callHooks point index hooks).2 calls := by
  -- The session goes through the hooks one by one, so the calls grow at their end and the relation at its
  -- front.
  induction hooks generalizing s index with
  | nil => exact ⟨[], .ok (), .done, rfl, .refl s⟩
  | cons hook hooks ih =>
    have hreaches := Reaches.call s (.hook point index) hook
    have hcall : s.call (.hook point index) hook =
        ((hook s.scene).1, (s.call (.hook point index) hook).2) := rfl
    have hscene : (s.call (.hook point index) hook).2.scene = (hook s.scene).2 := rfl
    rw [callHooks, hcall]
    cases hresult : (hook s.scene).1 with
    | ok =>
      rcases ih (s.call (.hook point index) hook).2 (index + 1) with ⟨calls, result, hmore, hout, hreaches'⟩
      rw [hscene] at hmore
      rw [hresult] at hreaches
      exact ⟨_, result, .passed (Prod.ext hresult rfl) hmore, hout, hreaches.trans hreaches'⟩
    | error e =>
      rw [hresult] at hreaches
      exact ⟨_, .error e, .failed (Prod.ext hresult hscene.symm), rfl, hreaches.log _⟩

theorem execute_spec (s : Session World) (step : Step) : ∃ calls o,
    HandlerCalls s.registry step s.scene calls o
        (s.execute step.text step.table step.docString).2.scene ∧
      Outcome.ofResult (s.execute step.text step.table step.docString).1 = o ∧
      s.Reaches (s.execute step.text step.table step.docString).2 calls := by
  have hreaches := Reaches.find s step.text
  have hfind : s.find step.text = ((s.registry.find step.text).1, (s.find step.text).2) := rfl
  have hscene : (s.find step.text).2.scene = s.scene := rfl
  have hcallFor : s.registry.callFor step = (s.registry.find step.text).1.map (Option.map fun m =>
    (m.winner.pattern.source, m.winner.handler ⟨m.values, step.table, step.docString⟩)) := rfl
  unfold execute
  rw [hfind]
  -- A handler is called only where a definition is found and its values convert.
  cases hfound : (s.registry.find step.text).1 with
  | error e =>
    rw [hfound] at hcallFor
    exact ⟨_, _, .unconverted hcallFor, rfl, hreaches⟩
  | ok m? =>
    rw [hfound] at hcallFor
    cases m? with
    | none => exact ⟨_, _, .undefined hcallFor, rfl, hreaches⟩
    | some m =>
      dsimp only
      let handler := m.winner.handler ⟨m.values, step.table, step.docString⟩
      let s₁ := (s.find step.text).2.log [⟨.trace, "invoking step",
        [("text", step.text), ("pattern", m.winner.pattern.source)]⟩]
      have hcalled : s.Reaches (s₁.call (.handler m.winner.pattern.source) handler).2
          [⟨.handler m.winner.pattern.source, failure? (handler s.scene).1⟩] :=
        (hreaches.log _).trans (Reaches.call s₁ _ handler)
      have hown : (s₁.call (.handler m.winner.pattern.source) handler).1 = (handler s.scene).1 := rfl
      cases hresult : (handler s.scene).1 with
      | ok =>
        rw [hresult] at hcalled hown
        exact ⟨_, _, .passed hcallFor (Prod.ext hresult rfl), by rw [hown]; rfl, hcalled⟩
      | error e =>
        rw [hresult] at hcalled hown
        exact ⟨_, _, .failed hcallFor (Prod.ext hresult rfl), by rw [hown]; rfl, hcalled⟩

end Session

namespace Runner

theorem runStep_spec (r : Runner World) (s : Session World) (step : Step) : ∃ calls,
    StepCalls r.hooks s.registry step s.scene calls (r.runStep s step).1 (r.runStep s step).2.scene ∧
      s.Reaches (r.runStep s step).2 calls := by
  let s₀ := s.log [⟨.debug, "running step", [("keyword", step.keyword.name), ("text", step.text)]⟩]
  have hreaches₀ : s.Reaches s₀ [] := (Session.Reaches.refl s).log _
  rcases s₀.callHooks_spec .beforeStep 0 (r.hooks.beforeStep.map (· step)) with
    ⟨before, result, hbefore, hresult, hreaches₁⟩
  let s₁ := (s₀.callHooks .beforeStep 0 (r.hooks.beforeStep.map (· step))).2
  have hstart : s₀.callHooks .beforeStep 0 (r.hooks.beforeStep.map (· step)) =
      (result.mapError (.hook .beforeStep), s₁) := Prod.ext hresult rfl
  unfold runStep
  dsimp only
  rw [show s.log _ = s₀ from rfl]
  -- A hook that fails before the step bars it: neither the handler nor the hooks behind it are called.
  cases result with
  | error e =>
    have hbarred : s₀.callHooks .beforeStep 0 (r.hooks.beforeStep.map (· step)) =
        (.error (.hook .beforeStep e), s₁) := hstart
    rw [hbarred]
    exact ⟨before, .barred hbefore, hreaches₀.trans hreaches₁⟩
  | ok =>
    have hpassed : s₀.callHooks .beforeStep 0 (r.hooks.beforeStep.map (· step)) = (.ok (), s₁) := hstart
    rcases s₁.execute_spec step with ⟨own, o, hown, ho, hreaches₂⟩
    let s₂ := (s₁.execute step.text step.table step.docString).2
    rcases s₂.callHooks_spec .afterStep 0 (r.hooks.afterStep.map (· step)) with
      ⟨after, result, hafter, hresult, hreaches₃⟩
    let s₃ := (s₂.callHooks .afterStep 0 (r.hooks.afterStep.map (· step))).2
    have hend : s₂.callHooks .afterStep 0 (r.hooks.afterStep.map (· step)) =
        (result.mapError (.hook .afterStep), s₃) := Prod.ext hresult rfl
    have hcalls : StepCalls r.hooks s.registry step s.scene (before ++ own ++ after) (o.after result)
        s₃.scene := .called hbefore (hown.congr hreaches₁.registry) hafter
    have hreaches : s.Reaches s₃ (before ++ own ++ after) :=
      ((hreaches₀.trans hreaches₁).trans hreaches₂).trans hreaches₃
    refine ⟨before ++ own ++ after, ?_⟩
    rw [hpassed]
    dsimp only
    rw [show s₁.execute step.text step.table step.docString =
      ((s₁.execute step.text step.table step.docString).1, s₂) from rfl, ho]
    dsimp only
    rw [hend]
    cases result with
    | ok => exact ⟨hcalls, hreaches⟩
    | error e => exact ⟨hcalls, hreaches⟩

theorem runSteps_halted (r : Runner World) (s : Session World) (steps : List Step) :
    r.runSteps true s steps = (steps.map fun _ => .skipped, s) := by
  induction steps with
  | nil => rfl
  | cons step steps ih =>
    rw [runSteps]
    simp only [if_true, Bool.true_or, ih, List.map_cons]

theorem runSteps_spec (r : Runner World) (s : Session World) (steps : List Step) : ∃ calls,
    StepsCalls r.hooks s.registry steps s.scene calls (r.runSteps false s steps).1
        (r.runSteps false s steps).2.scene ∧
      s.Reaches (r.runSteps false s steps).2 calls := by
  induction steps generalizing s with
  | nil => exact ⟨[], .done, .refl s⟩
  | cons step steps ih =>
    rcases r.runStep_spec s step with ⟨calls, hstep, hreaches⟩
    let s' := (r.runStep s step).2
    have hrun : r.runStep s step = ((r.runStep s step).1, s') := rfl
    rw [runSteps, if_neg Bool.false_ne_true, hrun]
    dsimp only
    rw [Bool.false_or]
    rcases hstep.passed_or_halts with ho | ho
    · -- The next steps run in a registry with one more mark, which changes no call.
      rw [ho] at hstep ⊢
      rcases ih s' with ⟨more, hmore, hreaches'⟩
      exact ⟨calls ++ more, .passed hstep (hmore.congr hreaches.registry), hreaches.trans hreaches'⟩
    · rw [ho, runSteps_halted]
      exact ⟨calls, .halted hstep ho, hreaches⟩

theorem filterMap_failure? (before after : Except StepError Unit) :
    [before.mapError (.hook .beforeScenario), after.mapError (.hook .afterScenario)].filterMap failure? =
      (hookFailure? .beforeScenario before).toList ++ (hookFailure? .afterScenario after).toList := by
  cases before <;> cases after <;> rfl

theorem perform_spec (r : Runner World) (s : Session World) (scenario : Scenario) (steps : List Step) :
    ∃ calls, ScenarioCalls r.hooks s.registry scenario steps s.scene calls
        (r.perform s scenario steps).1 (r.perform s scenario steps).2.1
        (r.perform s scenario steps).2.2.scene ∧
      s.Reaches (r.perform s scenario steps).2.2 calls := by
  rcases s.callHooks_spec .beforeScenario 0 (r.hooks.beforeScenario.map (· scenario)) with
    ⟨before, result, hbefore, hresult, hreaches₁⟩
  let s₁ := (s.callHooks .beforeScenario 0 (r.hooks.beforeScenario.map (· scenario))).2
  have hstart : s.callHooks .beforeScenario 0 (r.hooks.beforeScenario.map (· scenario)) =
      (result.mapError (.hook .beforeScenario), s₁) := Prod.ext hresult rfl
  unfold perform
  -- The hooks behind the scenario are called even where one before it has failed.
  cases result with
  | error e =>
    have hbarred : s.callHooks .beforeScenario 0 (r.hooks.beforeScenario.map (· scenario)) =
        (.error (.hook .beforeScenario e), s₁) := hstart
    rcases s₁.callHooks_spec .afterScenario 0 (r.hooks.afterScenario.map (· scenario)) with
      ⟨after, result, hafter, hresult, hreaches₂⟩
    have hfailures : [.error (.hook .beforeScenario e), result.mapError (.hook .afterScenario)].filterMap
        failure? = .hook .beforeScenario e :: (hookFailure? .afterScenario result).toList :=
      filterMap_failure? (.error e) result
    rw [hbarred]
    dsimp only [failure?, Option.isSome]
    rw [runSteps_halted]
    dsimp only
    rw [hresult, hfailures]
    exact ⟨before ++ after, .barred hbefore hafter, hreaches₁.trans hreaches₂⟩
  | ok =>
    have hpassed : s.callHooks .beforeScenario 0 (r.hooks.beforeScenario.map (· scenario)) =
        (.ok (), s₁) := hstart
    rcases r.runSteps_spec s₁ steps with ⟨between, hsteps, hreaches₂⟩
    let s₂ := (r.runSteps false s₁ steps).2
    rcases s₂.callHooks_spec .afterScenario 0 (r.hooks.afterScenario.map (· scenario)) with
      ⟨after, result, hafter, hresult, hreaches₃⟩
    have hfailures : [.ok (), result.mapError (.hook .afterScenario)].filterMap failure? =
        (hookFailure? .afterScenario result).toList := filterMap_failure? (.ok ()) result
    rw [hpassed]
    dsimp only [failure?, Option.isSome]
    rw [hresult, hfailures]
    exact ⟨before ++ between ++ after, .called hbefore (hsteps.congr hreaches₁.registry) hafter,
      (hreaches₁.trans hreaches₂).trans hreaches₃⟩

end Runner

end Gherkin
