import Gherkin.Proofs.Registry.Building
import Gherkin.Proofs.Run.Accounts

/-!
# What looking steps up foresees

A run that only looks steps up calls nothing and leaves the session as it is.  Beside a run of the same
scenarios it reports the same steps, says of each whether some definition matches it, and so which steps
no handler can be called for.
-/

namespace Gherkin

variable {World : Type}

/-! ## Runs by the turns of their steps -/

structure Turn where
  outcome : Outcome
  calls : List Call

/-- A step's turn is one that the step can take: it is called between its hooks, or it is skipped and
nothing is called. -/
inductive Turn.Of (hooks : Hooks World) (registry : Registry World) (step : Step) : Turn → Prop
  | skipped : Turn.Of hooks registry step ⟨.skipped, []⟩
  | called {σ σ' : Scene World} {calls : List Call} {o : Outcome}
      (h : StepCalls hooks registry step σ calls o σ') : Turn.Of hooks registry step ⟨o, calls⟩

structure ScenarioTrace where
  report : ScenarioReport
  before : List Call
  turns : List Turn
  after : List Call

def ScenarioTrace.calls (t : ScenarioTrace) : List Call := t.before ++ t.turns.flatMap Turn.calls ++ t.after

/-- The trace is one of the scenario: only its hooks are called around its steps, and each of its steps has
its turn and the outcome of the turn. -/
structure ScenarioTrace.Of (hooks : Hooks World) (registry : Registry World) (f : Feature)
    (scenario : Scenario) (t : ScenarioTrace) : Prop where
  before : ∀ c ∈ t.before, ∃ i, c.callee = .hook .beforeScenario i
  turns : List.Forall₂ (Turn.Of hooks registry) (scenario.stepsAfter f.background) t.turns
  after : ∀ c ∈ t.after, ∃ i, c.callee = .hook .afterScenario i
  report : ∃ failures, t.report = ⟨scenario.name, f.effectiveTags scenario, scenario.location,
    StepReport.ofOutcomes (scenario.stepsAfter f.background) (t.turns.map Turn.outcome), failures⟩

section
variable {hooks : Hooks World} {registry : Registry World}

theorem Turn.of_skipped (steps : List Step) :
    List.Forall₂ (Turn.Of hooks registry) steps (steps.map fun _ => ⟨.skipped, []⟩) := by
  induction steps with
  | nil => exact .nil
  | cons step steps ih => exact .cons .skipped ih

theorem Turn.flatMap_calls_skipped (steps : List Step) :
    (steps.map fun _ => (⟨.skipped, []⟩ : Turn)).flatMap Turn.calls = [] := by
  rw [List.flatMap_eq_nil_iff]
  intro turn hturn
  obtain ⟨_, -, rfl⟩ := List.mem_map.1 hturn
  rfl

theorem StepsCalls.exists_turns {steps : List Step} {σ σ' : Scene World} {calls : List Call}
    {outcomes : List Outcome} (h : StepsCalls hooks registry steps σ calls outcomes σ') :
    ∃ turns : List Turn, calls = turns.flatMap Turn.calls ∧ outcomes = turns.map Turn.outcome ∧
      List.Forall₂ (Turn.Of hooks registry) steps turns := by
  induction h with
  | done => exact ⟨[], rfl, rfl, .nil⟩
  | passed hstep _ ih =>
    obtain ⟨turns, rfl, rfl, hturns⟩ := ih
    exact ⟨_ :: turns, rfl, rfl, .cons (.called hstep) hturns⟩
  | @halted _ steps _ _ calls o hstep _ =>
    refine ⟨⟨o, calls⟩ :: steps.map fun _ => ⟨.skipped, []⟩, ?_, ?_,
      .cons (.called hstep) (Turn.of_skipped steps)⟩
    · rw [List.flatMap_cons, Turn.flatMap_calls_skipped, List.append_nil]
    · rw [List.map_cons, List.map_map]
      rfl

theorem ScenarioCalls.exists_turns {scenario : Scenario} {steps : List Step} {σ σ' : Scene World}
    {calls : List Call} {outcomes : List Outcome} {failures : List ExecutionError}
    (h : ScenarioCalls hooks registry scenario steps σ calls outcomes failures σ') :
    ∃ (before : List Call) (turns : List Turn) (after : List Call),
      calls = before ++ turns.flatMap Turn.calls ++ after ∧ outcomes = turns.map Turn.outcome ∧
      (∀ c ∈ before, ∃ i, c.callee = .hook .beforeScenario i) ∧
      List.Forall₂ (Turn.Of hooks registry) steps turns ∧
      ∀ c ∈ after, ∃ i, c.callee = .hook .afterScenario i := by
  cases h with
  | @barred _ _ before after _ _ hbefore hafter =>
    refine ⟨before, _, after, ?_, ?_, fun c hc => hbefore.eq_hook hc, Turn.of_skipped steps,
      fun c hc => hafter.eq_hook hc⟩
    · rw [Turn.flatMap_calls_skipped, List.append_nil]
    · rw [List.map_map]
      rfl
  | @called _ _ _ before between after _ _ hbefore hsteps hafter =>
    obtain ⟨turns, rfl, rfl, hturns⟩ := hsteps.exists_turns
    exact ⟨before, turns, after, rfl, rfl, fun c hc => hbefore.eq_hook hc, hturns,
      fun c hc => hafter.eq_hook hc⟩

end

/-! ## A step that is looked up and run -/

structure Outcome.Foresees (dry : Outcome) (turn : Turn) : Prop where
  undefined : ∀ suggestion, turn.outcome = .undefined suggestion → dry = .undefined suggestion
  unhandled : ∀ suggestion, dry = .undefined suggestion →
    (∀ c ∈ turn.calls, ∀ pattern, c.callee ≠ .handler pattern) ∧
      (turn.outcome = .undefined suggestion ∨ turn.outcome = .skipped ∨
        ∃ point e, turn.outcome = .failed (.hook point e))
  skipped : dry = .skipped ∨ ∃ suggestion, dry = .undefined suggestion

namespace Registry

theorem accepts_eq_false_iff {r : Registry World} {step : Step} :
    r.accepts step.text = false ↔ r.callFor step = .ok none := by
  have hcall : r.callFor step = .ok none ↔ (r.find step.text).1 = .ok none := by
    unfold callFor
    cases (r.find step.text).1 with
    | error e => simp [Except.map]
    | ok found => cases found <;> simp [Except.map]
  rw [hcall, find_eq_none_iff]
  unfold accepts Pattern.accepts
  simp

end Registry

theorem HookCalls.not_handler {point : HookPoint} {index : Nat} {effects : List (Effect World)}
    {σ σ' : Scene World} {calls : List Call} {result : Except StepError Unit}
    (h : HookCalls point index effects σ calls result σ') {c : Call} (hc : c ∈ calls) (pattern : String) :
    c.callee ≠ .handler pattern := by
  obtain ⟨i, hi⟩ := h.eq_hook hc
  rw [hi]
  exact nofun

theorem Outcome.foresee_eq_undefined {registry : Registry World} {step : Step} {suggestion : String}
    (h : Outcome.foresee registry step.text = .undefined suggestion) :
    registry.callFor step = .ok none ∧ suggestion = suggest step.text := by
  unfold foresee at h
  split at h
  · cases h
  · rename_i haccepts
    rw [Bool.not_eq_true, Registry.accepts_eq_false_iff] at haccepts
    exact ⟨haccepts, (Outcome.undefined.inj h).symm⟩

theorem Outcome.foresee_of_callFor {registry : Registry World} {step : Step}
    (h : registry.callFor step = .ok none) :
    Outcome.foresee registry step.text = .undefined (suggest step.text) := by
  unfold foresee
  rw [Registry.accepts_eq_false_iff.2 h]
  rfl

/-- A hook behind a step that is undefined leaves it so, and makes no other step undefined. -/
theorem Outcome.after_eq_undefined_iff {own : Outcome} {result : Except StepError Unit} {suggestion : String} :
    own.after result = .undefined suggestion ↔ own = .undefined suggestion := by
  cases result with
  | ok => exact Iff.rfl
  | error e =>
    by_cases hpassed : own = .passed
    · rw [hpassed]
      exact iff_of_false nofun nofun
    · rw [Outcome.after_error_of_ne_passed hpassed]

theorem Turn.Of.foreseen {hooks : Hooks World} {registry : Registry World} {step : Step} {turn : Turn}
    (h : turn.Of hooks registry step) : (Outcome.foresee registry step.text).Foresees turn where
  undefined suggestion houtcome := by
    cases h with
    | skipped => cases houtcome
    | called hstep =>
      cases hstep with
      | barred => cases houtcome
      | called _ hown =>
        have hundefined := Outcome.after_eq_undefined_iff.1 houtcome
        cases hown with
        | undefined hcall => rw [Outcome.foresee_of_callFor hcall, hundefined]
        | unconverted | passed | failed => cases hundefined
  -- No definition is found, so the step calls hooks at most.
  unhandled suggestion hdry := by
    obtain ⟨hcall, rfl⟩ := Outcome.foresee_eq_undefined hdry
    cases h with
    | skipped => exact ⟨nofun, Or.inr (Or.inl rfl)⟩
    | called hstep =>
      cases hstep with
      | barred hbefore =>
        exact ⟨fun c hc => hbefore.not_handler hc, Or.inr (Or.inr ⟨.beforeStep, _, rfl⟩)⟩
      | called hbefore hown hafter =>
        have hturn := hown.eq_of_callFor
        rw [hcall] at hturn
        cases hturn
        refine ⟨?_, Or.inl (Outcome.after_eq_undefined_iff.2 rfl)⟩
        intro c hc
        rw [List.append_nil] at hc
        rcases List.mem_append.1 hc with hc | hc
        · exact hbefore.not_handler hc
        · exact hafter.not_handler hc
  skipped := by
    unfold Outcome.foresee
    split
    · exact Or.inl rfl
    · exact Or.inr ⟨_, rfl⟩

/-! ## Scenarios that are looked up and run -/

structure ScenarioReport.Foresees (dry : ScenarioReport) (t : ScenarioTrace) : Prop where
  scenario : (dry.name, dry.tags, dry.location) = (t.report.name, t.report.tags, t.report.location)
  written : dry.steps.map (fun x => (x.keyword, x.text, x.location)) =
    t.report.steps.map fun x => (x.keyword, x.text, x.location)
  resolved : dry.steps.map (·.resolved) = t.report.steps.map (·.resolved)
  outcomes : List.Forall₂ Outcome.Foresees (dry.steps.map (·.outcome)) t.turns

namespace Runner

def reportForeseen (registry : Registry World) (f : Feature) (scenario : Scenario) : ScenarioReport :=
  ⟨scenario.name, f.effectiveTags scenario, scenario.location,
    StepReport.ofOutcomes (scenario.stepsAfter f.background)
      ((scenario.stepsAfter f.background).map fun step => .foresee registry step.text), []⟩

end Runner

theorem ScenarioTrace.Of.foreseen {hooks : Hooks World} {registry : Registry World} {f : Feature}
    {scenario : Scenario} {t : ScenarioTrace} (h : t.Of hooks registry f scenario) :
    (Runner.reportForeseen registry f scenario).Foresees t := by
  obtain ⟨failures, hreport⟩ := h.report
  have hdry : ((scenario.stepsAfter f.background).map fun step =>
      Outcome.foresee registry step.text).length = (scenario.stepsAfter f.background).length := List.length_map _
  have hreal : (t.turns.map Turn.outcome).length = (scenario.stepsAfter f.background).length := by
    rw [List.length_map, h.turns.length_eq]
  constructor
  · rw [hreport]
    rfl
  · rw [hreport]
    exact (StepReport.map_written_ofOutcomes hdry).trans (StepReport.map_written_ofOutcomes hreal).symm
  · rw [hreport]
    exact (StepReport.map_resolved_ofOutcomes hdry).trans (StepReport.map_resolved_ofOutcomes hreal).symm
  · show List.Forall₂ Outcome.Foresees ((StepReport.ofOutcomes _ _).map StepReport.outcome) t.turns
    rw [StepReport.map_outcome_ofOutcomes hdry, List.forall₂_map_left_iff]
    exact h.turns.imp fun _ _ hturn => hturn.foreseen

theorem Session.log_nil (s : Session World) : s.log [] = s := by
  unfold log
  rw [List.append_nil]

theorem Session.log_log (s : Session World) (events more : List Event) :
    (s.log events).log more = s.log (events ++ more) := by
  unfold log
  rw [List.append_assoc]

namespace Runner

def withDryRun (r : Runner World) (dryRun : Bool) : Runner World :=
  { r with settings := { r.settings with dryRun } }

section
variable (r : Runner World) (f : Feature)

/-- A scenario that is excluded is counted. -/
theorem runScenarios_cons_of_neg (s : Session World) {scenario : Scenario}
    (h : r.settings.selects (f.effectiveTags scenario) = false) (scenarios : List Scenario) :
    ∃ events, ∀ report s', r.runScenarios f false (s.log events) scenarios = (report, s') →
      r.runScenarios f false s (scenario :: scenarios) =
        ({ report with filtered := report.filtered + 1 }, s') := by
  refine ⟨[⟨.debug, "excluded by tag filter", [("scenario", scenario.name)]⟩], ?_⟩
  intro report s' hrest
  rw [runScenarios, h]
  simp only [Bool.not_false, if_true, hrest]

/-- Where a failure does not end the run, a selected scenario is run and then the rest is. -/
theorem runScenarios_cons_of_pos (hgoes : r.settings.failFast = false) (s : Session World)
    {scenario : Scenario} (h : r.settings.selects (f.effectiveTags scenario) = true)
    (scenarios : List Scenario) {result : ScenarioReport} {s₁ : Session World}
    (hran : r.runScenario s f.background scenario (f.effectiveTags scenario) = (result, s₁)) :
    ∃ events, ∀ report s', r.runScenarios f false (s₁.log events) scenarios = (report, s') →
      r.runScenarios f false s (scenario :: scenarios) =
        ({ report with scenarios := result :: report.scenarios }, s') := by
  by_cases hfailed : result.status = .failed
  · refine ⟨[⟨.warn, "scenario failed",
      [("scenario", result.name), ("location", result.location.render)]⟩], ?_⟩
    intro report s' hrest
    rw [runScenarios, h, hran]
    simp only [Bool.not_true, Bool.false_eq_true, if_false, hgoes, Bool.and_false, hfailed, decide_true,
      if_true, hrest]
  · refine ⟨[], ?_⟩
    intro report s' hrest
    rw [Session.log_nil] at hrest
    rw [runScenarios, h, hran]
    simp only [Bool.not_true, Bool.false_eq_true, if_false, hgoes, Bool.and_false, hfailed, decide_false,
      hrest]

/-- A run that only looks steps up reports every selected scenario so and changes nothing. -/
theorem runScenarios_dry (hdry : r.settings.dryRun = true) (hgoes : r.settings.failFast = false)
    (s : Session World) (scenarios : List Scenario) :
    ∃ events, r.runScenarios f false s scenarios =
      (⟨f.name, (r.selected f scenarios).map (reportForeseen s.registry f),
        scenarios.length - (r.selected f scenarios).length, 0⟩, s.log events) := by
  induction scenarios generalizing s with
  | nil => exact ⟨[], by rw [Session.log_nil]; rfl⟩
  | cons scenario scenarios ih =>
    have hle : (r.selected f scenarios).length ≤ scenarios.length := List.length_filter_le _ _
    -- Whether it is selected or not, a scenario leaves only events behind.
    cases hselects : r.settings.selects (f.effectiveTags scenario) with
    | false =>
      obtain ⟨events, hrun⟩ := r.runScenarios_cons_of_neg f s hselects scenarios
      obtain ⟨more, hmore⟩ := ih (s.log events)
      have hcount : scenarios.length - (r.selected f scenarios).length + 1 =
          scenarios.length + 1 - (r.selected f scenarios).length := by omega
      refine ⟨events ++ more, ?_⟩
      rw [hrun _ _ hmore, selected_cons_of_neg r f hselects, List.length_cons, ← hcount, ← Session.log_log]
      rfl
    | true =>
      let started : List Event :=
        [⟨.debug, "running scenario", [("scenario", scenario.name), ("dry_run", "true")]⟩]
      have hran := r.runScenario_dry s f.background scenario (f.effectiveTags scenario) hdry
      obtain ⟨events, hrun⟩ := r.runScenarios_cons_of_pos f hgoes s hselects scenarios hran
      rw [Session.log_log] at hrun
      obtain ⟨more, hmore⟩ := ih (s.log (started ++ events))
      refine ⟨started ++ events ++ more, ?_⟩
      rw [hrun _ _ hmore, selected_cons_of_pos r f hselects, List.length_cons, List.length_cons,
        Nat.add_sub_add_right, Session.log_log]
      rfl

/-- A run that calls its steps has a trace for every selected scenario, and its calls are those of the
traces. -/
theorem exists_traces (hreal : r.settings.dryRun = false) (hgoes : r.settings.failFast = false)
    {registry : Registry World} (s : Session World) (h : s.registry.unmarked = registry.unmarked)
    (scenarios : List Scenario) :
    ∃ (traces : List ScenarioTrace) (s' : Session World), r.runScenarios f false s scenarios =
        (⟨f.name, traces.map ScenarioTrace.report, scenarios.length - (r.selected f scenarios).length, 0⟩,
          s') ∧
      s'.calls = s.calls ++ traces.flatMap ScenarioTrace.calls ∧
      List.Forall₂ (ScenarioTrace.Of r.hooks registry f) (r.selected f scenarios) traces := by
  induction scenarios generalizing s with
  | nil => exact ⟨[], s, rfl, (List.append_nil _).symm, .nil⟩
  | cons scenario scenarios ih =>
    have hle : (r.selected f scenarios).length ≤ scenarios.length := List.length_filter_le _ _
    -- A scenario that is not selected adds to what is filtered and to nothing else.
    cases hselects : r.settings.selects (f.effectiveTags scenario) with
    | false =>
      obtain ⟨events, hrun⟩ := r.runScenarios_cons_of_neg f s hselects scenarios
      obtain ⟨traces, s', hrest, hcalls, htraces⟩ := ih (s.log events) h
      have hcount : scenarios.length - (r.selected f scenarios).length + 1 =
          scenarios.length + 1 - (r.selected f scenarios).length := by omega
      rw [selected_cons_of_neg r f hselects, List.length_cons, ← hcount]
      exact ⟨traces, s', hrun _ _ hrest, hcalls, htraces⟩
    | true =>
      obtain ⟨outcomes, failures, s₁, calls, hran, hcalls₁, hscenario⟩ :=
        r.runScenario_eq s f.background scenario (f.effectiveTags scenario) hreal
      obtain ⟨before, turns, after, rfl, rfl, hbefore, hturns, hafter⟩ := (hscenario.congr h).exists_turns
      -- A run marks definitions as used, which no later scenario can tell.
      have hmarks := r.unmarked_runScenario s f.background scenario (f.effectiveTags scenario)
      rw [hran] at hmarks
      obtain ⟨events, hrun⟩ := r.runScenarios_cons_of_pos f hgoes s hselects scenarios hran
      obtain ⟨traces, s', hrest, hcalls, htraces⟩ := ih (s₁.log events) (hmarks.trans h)
      let report : ScenarioReport := ⟨scenario.name, f.effectiveTags scenario, scenario.location,
        StepReport.ofOutcomes (scenario.stepsAfter f.background) (turns.map Turn.outcome), failures⟩
      let trace : ScenarioTrace := ⟨report, before, turns, after⟩
      have htrace : trace.Of r.hooks registry f scenario := ⟨hbefore, hturns, hafter, failures, rfl⟩
      have hcalls' : s'.calls = s.calls ++ (trace :: traces).flatMap ScenarioTrace.calls := by
        rw [hcalls, show (s₁.log events).calls = s₁.calls from rfl, hcalls₁, List.flatMap_cons,
          List.append_assoc]
        rfl
      rw [selected_cons_of_pos r f hselects, List.length_cons, List.length_cons, Nat.add_sub_add_right]
      exact ⟨trace :: traces, s', hrun _ _ hrest, hcalls', .cons htrace htraces⟩

end

/-- Looking the steps of a feature up calls nothing, marks nothing and foresees what running them does: the
same scenarios and steps are reported, and each outcome foresees the turn that the step then has. -/
theorem dryRun_foresees (r : Runner World) (s : Session World) (f : Feature)
    (hgoes : r.settings.failFast = false) :
    ∃ dry s₁ real s₂ traces, (r.withDryRun true).runFeature s f = (dry, s₁) ∧
      (r.withDryRun false).runFeature s f = (real, s₂) ∧
      s₁.calls = s.calls ∧ s₁.scene = s.scene ∧ s₁.registry = s.registry ∧
      dry.name = real.name ∧ dry.filtered = real.filtered ∧ dry.notRun = real.notRun ∧
      real.scenarios = traces.map ScenarioTrace.report ∧
      s₂.calls = s.calls ++ traces.flatMap ScenarioTrace.calls ∧
      List.Forall₂ (ScenarioTrace.Of r.hooks s.registry f)
        ((r.settings.tags.map f.filterByTags).getD f.allScenarios) traces ∧
      List.Forall₂ ScenarioReport.Foresees dry.scenarios traces := by
  let dry := r.withDryRun true
  let real := r.withDryRun false
  let s' := s.log [⟨.debug, "running feature", [("feature", f.name)]⟩]
  obtain ⟨events, hdry⟩ := dry.runScenarios_dry f rfl hgoes s' f.allScenarios
  obtain ⟨traces, s₂, hreal, hcalls, htraces⟩ := real.exists_traces f rfl hgoes s' rfl f.allScenarios
  have hselected : r.selected f f.allScenarios =
    (r.settings.tags.map f.filterByTags).getD f.allScenarios := r.selected_allScenarios f
  have hforeseen : List.Forall₂ ScenarioReport.Foresees
      ((r.selected f f.allScenarios).map (reportForeseen s.registry f)) traces :=
    List.forall₂_map_left_iff.2 (htraces.imp fun _ _ htrace => htrace.foreseen)
  rw [← hselected]
  exact ⟨_, _, _, s₂, traces, hdry, hreal, rfl, rfl, rfl, rfl, rfl, rfl, rfl, hcalls, htraces, hforeseen⟩

/-- A number that does not convert, so that the step after it is skipped; an undefined step; and one that a
hook keeps from being run. -/
theorem dryRun_foresees_of_failing_steps : ∃ (r : Runner Nat) (s : Session Nat) (f : Feature)
    (dry real : FeatureReport) (s₁ s₂ : Session Nat) (traces : List ScenarioTrace),
      r.settings.failFast = false ∧ (r.withDryRun true).runFeature s f = (dry, s₁) ∧
      (r.withDryRun false).runFeature s f = (real, s₂) ∧
      dry.scenarios.map (fun x => x.steps.map (·.outcome.status)) =
        [[.skipped, .undefined], [.undefined], [.undefined]] ∧
      real.scenarios.map (fun x => x.steps.map (·.outcome.status)) =
        [[.failed, .skipped], [.undefined], [.failed]] ∧
      s₁.calls = [] ∧ s₂.calls = traces.flatMap ScenarioTrace.calls ∧
      List.Forall₂ ScenarioReport.Foresees dry.scenarios traces := by
  let s : Session Nat :=
    { registry := .push {} (Registration.definition ⟨none, "a \x7bint\x7d", fun _ σ => (.ok (), σ),
        ⟨"steps", 1⟩⟩ (.ofParts "a \x7bint\x7d" [.literal 'a', .literal ' ', .slot .int]))
      scene := ⟨.empty, 0⟩ }
  let bar (step : Step) : Effect Nat := fun σ =>
    if step.text = "c" then (.error (.other "x"), σ) else (.ok (), { σ with world := σ.world + 1 })
  let r : Runner Nat := { hooks := { beforeStep := [bar] } }
  let scenario (texts : List String) : Child := .scenario ⟨"", none, [],
    texts.map fun text => ⟨.given, text, none, none, .start⟩, .start⟩
  let f : Feature := ⟨"", none, [], none,
    [scenario ["a 99999999999999999999", "b"], scenario ["b"], scenario ["c"]], .start⟩
  have hdry : ((r.withDryRun true).runFeature s f).1.scenarios.map (fun x =>
      x.steps.map (·.outcome.status)) = [[.skipped, .undefined], [.undefined], [.undefined]] := by
    decide +kernel
  have hreal : ((r.withDryRun false).runFeature s f).1.scenarios.map (fun x =>
      x.steps.map (·.outcome.status)) = [[.failed, .skipped], [.undefined], [.failed]] := by
    decide +kernel
  obtain ⟨dry, s₁, real, s₂, traces, hrun, hrun', hcalls, -, -, -, -, -, -, hcalls', -, hforeseen⟩ :=
    r.dryRun_foresees s f rfl
  rw [hrun] at hdry
  rw [hrun'] at hreal
  exact ⟨r, s, f, dry, real, s₁, s₂, traces, rfl, hrun, hrun', hdry, hreal, hcalls, hcalls', hforeseen⟩

end Runner

end Gherkin
