import Gherkin.Handler

/-!
# Reports

What a run says about steps, scenarios and features, and how it is counted.
-/

namespace Gherkin

inductive Outcome where
  | passed
  | failed (cause : ExecutionError)
  /-- No definition matches; `suggestion` is a pattern that does. -/
  | undefined (suggestion : String)
  | skipped
deriving DecidableEq, Repr

inductive Status where
  | passed
  | failed
  | undefined
  | skipped
deriving DecidableEq, Repr

def Status.name : Status → String
  | .passed => "passed"
  | .failed => "failed"
  | .undefined => "undefined"
  | .skipped => "skipped"

def Outcome.status : Outcome → Status
  | .passed => .passed
  | .failed _ => .failed
  | .undefined _ => .undefined
  | .skipped => .skipped

theorem Outcome.status_eq_passed_iff {o : Outcome} : o.status = .passed ↔ o = .passed := by
  cases o <;> simp [status]

theorem Outcome.status_eq_failed_iff {o : Outcome} : o.status = .failed ↔ ∃ cause, o = .failed cause := by
  cases o <;> simp [status]

theorem Outcome.status_eq_undefined_iff {o : Outcome} :
    o.status = .undefined ↔ ∃ suggestion, o = .undefined suggestion := by
  cases o <;> simp [status]

theorem Outcome.status_eq_skipped_iff {o : Outcome} : o.status = .skipped ↔ o = .skipped := by
  cases o <;> simp [status]

/-- Whether the steps after it are skipped. -/
def Outcome.halts (o : Outcome) : Bool := o.status = .failed || o.status = .undefined

structure StepReport where
  keyword : StepKeyword
  /-- The keyword that the step stands for after the steps before it. -/
  resolved : StepKeyword
  text : String
  location : Location
  outcome : Outcome
deriving DecidableEq, Repr

structure ScenarioReport where
  name : String
  tags : List String
  location : Location
  steps : List StepReport
  /-- The failures of the hooks around the scenario. -/
  hookFailures : List ExecutionError
deriving DecidableEq, Repr

/-- A failure counts before an undefined step, and a scenario is skipped if all its steps are. -/
def ScenarioReport.status (r : ScenarioReport) : Status :=
  let statuses := r.steps.map (·.outcome.status)
  if !r.hookFailures.isEmpty || statuses.contains .failed then .failed
  else if statuses.contains .undefined then .undefined
  else if !statuses.isEmpty && statuses.all (· = .skipped) then .skipped
  else .passed

structure FeatureReport where
  name : String
  scenarios : List ScenarioReport
  /-- How many scenarios the tags exclude. -/
  filtered : Nat
  /-- How many scenarios come after the failure that ended the run. -/
  notRun : Nat
deriving DecidableEq, Repr

structure Tally where
  passed : Nat := 0
  failed : Nat := 0
  undefined : Nat := 0
  skipped : Nat := 0
deriving DecidableEq, Repr

namespace Tally

def record (t : Tally) : Status → Tally
  | .passed => { t with passed := t.passed + 1 }
  | .failed => { t with failed := t.failed + 1 }
  | .undefined => { t with undefined := t.undefined + 1 }
  | .skipped => { t with skipped := t.skipped + 1 }

def total (t : Tally) : Nat := t.passed + t.failed + t.undefined + t.skipped

end Tally

structure Summary where
  scenarios : Tally := {}
  steps : Tally := {}
  strict : Bool
deriving DecidableEq, Repr

namespace Summary

def record (s : Summary) (r : ScenarioReport) : Summary :=
  { s with
    scenarios := s.scenarios.record r.status
    steps := r.steps.foldl (fun t x => t.record x.outcome.status) s.steps }

def of (reports : List FeatureReport) (strict : Bool) : Summary :=
  (reports.flatMap (·.scenarios)).foldl record { strict }

/-- Nothing failed, and where undefined steps count there is none. -/
def isSuccess (s : Summary) : Bool :=
  s.scenarios.failed = 0 && !(s.strict && 0 < s.steps.undefined)

end Summary

end Gherkin
