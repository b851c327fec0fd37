import Gherkin.Run.Scenario

/-!
# Running features

The scenarios of a feature are run in their order.  Some are excluded by their tags, and where a run
ends with the first failure, some are left.
-/

namespace Gherkin

def FeatureReport.hasFailed (r : FeatureReport) : Bool :=
  r.scenarios.any fun s => s.status = .failed

namespace Runner

variable {World : Type}

/-- Runs those of some scenarios of a feature whose tags do not exclude them, and none of them if the
run has `stopped`. -/
def runScenarios (r : Runner World) (f : Feature) (stopped : Bool) (s : Session World) :
    List Scenario → FeatureReport × Session World
  | [] => (⟨f.name, [], 0, 0⟩, s)
  | scenario :: scenarios =>
    let tags := f.effectiveTags scenario
    if !r.settings.selects tags then
      let s := s.log [⟨.debug, "excluded by tag filter", [("scenario", scenario.name)]⟩]
      let (report, s) := runScenarios r f stopped s scenarios
      ({ report with filtered := report.filtered + 1 }, s)
    else if stopped then
      let (report, s) := runScenarios r f stopped s scenarios
      ({ report with notRun := report.notRun + 1 }, s)
    else
      let (result, s) := r.runScenario s f.background scenario tags
      let failed := result.status = .failed
      let s := if failed then s.log [⟨.warn, "scenario failed",
        [("scenario", result.name), ("location", result.location.render)]⟩] else s
      let (report, s) := runScenarios r f (failed && r.settings.failFast) s scenarios
      ({ report with scenarios := result :: report.scenarios }, s)

def runFeature (r : Runner World) (s : Session World) (f : Feature) :
    FeatureReport × Session World :=
  let s := s.log [⟨.debug, "running feature", [("feature", f.name)]⟩]
  r.runScenarios f false s f.allScenarios

def runFeatures (r : Runner World) (s : Session World) :
    List Feature → List FeatureReport × Session World
  | [] => ([], s)
  | f :: fs =>
    let (report, s) := r.runFeature s f
    if report.hasFailed && r.settings.failFast then ([report], s)
    else
      let (reports, s) := runFeatures r s fs
      (report :: reports, s)

end Runner

end Gherkin
