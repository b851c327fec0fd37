import Gherkin.Pattern.Suggestion
import Gherkin.Run.Report
import Gherkin.Session
import Gherkin.Settings

/-!
# Running a scenario

The steps of a scenario, those of the background before its own, are run in their order until one
fails or is undefined; the rest is skipped.  Every scenario starts with an empty memory.
-/

namespace Gherkin

structure Runner (World : Type) where
  settings : Settings := {}
  hooks : Hooks World := {}

def Scenario.stepsAfter (s : Scenario) (background : Option Background) : List Step :=
  (background.map (·.steps)).getD [] ++ s.steps

def Outcome.ofResult : Except ExecutionError Unit → Outcome
  | .ok () => .passed
  | .error (.undefined text) => .undefined (suggest text)
  | .error e => .failed e

def Outcome.foresee {World : Type} (r : Registry World) (text : String) : Outcome :=
  if r.accepts text then .skipped else .undefined (suggest text)

def StepReport.ofOutcomes (steps : List Step) (outcomes : List Outcome) : List StepReport :=
  let resolved := StepKeyword.resolveAll none (steps.map (·.keyword))
  (steps.zip (resolved.zip outcomes)).map fun (step, keyword, outcome) =>
    ⟨step.keyword, keyword, step.text, step.location, outcome⟩

namespace Runner

variable {World : Type}

/-- Runs a step and the hooks around it.  A hook before it that fails keeps the step from being run;
one after it that fails only counts if the step has passed. -/
def runStep (r : Runner World) (s : Session World) (step : Step) : Outcome × Session World :=
  let s := s.log [⟨.debug, "running step", [("keyword", step.keyword.name), ("text", step.text)]⟩]
  match s.callHooks .beforeStep 0 (r.hooks.beforeStep.map (· step)) with
  | (.error e, s) => (.failed e, s)
  | (.ok (), s) =>
    let (result, s) := s.execute step.text step.table step.docString
    let outcome := Outcome.ofResult result
    match s.callHooks .afterStep 0 (r.hooks.afterStep.map (· step)) with
    | (.error e, s) => (if outcome = .passed then .failed e else outcome, s)
    | (.ok (), s) => (outcome, s)

/-- The outcomes of steps; they are skipped once one has halted the scenario. -/
def runSteps (r : Runner World) (halted : Bool) (s : Session World) :
    List Step → List Outcome × Session World
  | [] => ([], s)
  | step :: steps =>
    let (outcome, s) := if halted then (.skipped, s) else r.runStep s step
    let (outcomes, s) := runSteps r (halted || outcome.halts) s steps
    (outcome :: outcomes, s)

/-- Runs the steps of a scenario and the hooks around it.  The hooks after it are called in any
case. -/
def perform (r : Runner World) (s : Session World) (scenario : Scenario) (steps : List Step) :
    List Outcome × List ExecutionError × Session World :=
  let (before, s) := s.callHooks .beforeScenario 0 (r.hooks.beforeScenario.map (· scenario))
  let (outcomes, s) := r.runSteps (failure? before).isSome s steps
  let (after, s) := s.callHooks .afterScenario 0 (r.hooks.afterScenario.map (· scenario))
  (outcomes, [before, after].filterMap failure?, s)

def runScenario (r : Runner World) (s : Session World) (background : Option Background)
    (scenario : Scenario) (tags : List String) : ScenarioReport × Session World :=
  let s := s.log [⟨.debug, "running scenario",
    [("scenario", scenario.name), ("dry_run", toString r.settings.dryRun)]⟩]
  let steps := scenario.stepsAfter background
  let (outcomes, hookFailures, s) :=
    if r.settings.dryRun then
      (steps.map fun step => .foresee s.registry step.text, [], s)
    else r.perform s.forget scenario steps
  (⟨scenario.name, tags, scenario.location, StepReport.ofOutcomes steps outcomes, hookFailures⟩, s)

end Runner

end Gherkin
