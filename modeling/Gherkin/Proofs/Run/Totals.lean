import Gherkin.Proofs.Run.Lifecycle

/-!
# Totals of a run

A summary counts each scenario once and each of its steps once, so totals are lengths of lists and add up
where reports are put together.  A run is a success by its counts exactly when it is one by the statuses of
its scenarios: a step that is undefined leaves its scenario undefined, unless something in it failed.
-/

namespace Gherkin

/-! ## Tallies -/

namespace Tally

def count (t : Tally) : Status → Nat
  | .passed => t.passed
  | .failed => t.failed
  | .undefined => t.undefined
  | .skipped => t.skipped

instance : Add Tally where
  add t u := ⟨t.passed + u.passed, t.failed + u.failed, t.undefined + u.undefined, t.skipped + u.skipped⟩

theorem count_add (t u : Tally) (status : Status) : (t + u).count status = t.count status + u.count status := by
  cases status <;> rfl

theorem eq_of_count {t u : Tally} (h : ∀ status, t.count status = u.count status) : t = u := by
  cases t
  cases u
  rw [mk.injEq]
  exact ⟨h .passed, h .failed, h .undefined, h .skipped⟩

theorem count_record (t : Tally) (recorded status : Status) :
    (t.record recorded).count status = t.count status + [recorded].count status := by
  cases recorded <;> cases status <;> rfl

theorem total_record (t : Tally) (recorded : Status) : (t.record recorded).total = t.total + 1 := by
  cases recorded
  all_goals
    simp only [record, total]
    omega

theorem count_foldl_record (t : Tally) (recorded : List Status) (status : Status) :
    (recorded.foldl record t).count status = t.count status + recorded.count status := by
  induction recorded generalizing t with
  | nil => rfl
  | cons first more ih =>
    have hfirst := count_record t first status
    have hcount : (first :: more).count status = [first].count status + more.count status := by
      rw [← List.count_append, List.singleton_append]
    rw [List.foldl_cons, ih]
    omega

theorem total_foldl_record (t : Tally) (recorded : List Status) :
    (recorded.foldl record t).total = t.total + recorded.length := by
  induction recorded generalizing t with
  | nil => rfl
  | cons first more ih =>
    have hfirst := total_record t first
    rw [List.foldl_cons, ih, List.length_cons]
    omega

theorem count_empty (status : Status) : ({} : Tally).count status = 0 := by
  cases status <;> rfl

/-- What is recorded from the start of one list of statuses and of another adds up. -/
theorem foldl_record_append (xs ys : List Status) :
    (xs ++ ys).foldl record {} = xs.foldl record {} + ys.foldl record {} := by
  apply eq_of_count
  intro status
  simp only [count_add, count_foldl_record, count_empty, Nat.zero_add, List.count_append]

end Tally

/-! ## Summaries -/

namespace Summary

/-- A summary records the statuses of the scenarios and, apart from them, those of all their steps. -/
theorem foldl_record (s : Summary) (scenarios : List ScenarioReport) : scenarios.foldl record s =
    { scenarios := (scenarios.map (·.status)).foldl .record s.scenarios
      steps := ((scenarios.flatMap (·.steps)).map (·.outcome.status)).foldl .record s.steps
      strict := s.strict } := by
  induction scenarios generalizing s with
  | nil => rfl
  | cons r more ih =>
    rw [List.foldl_cons, ih]
    simp only [record, List.map_cons, List.foldl_cons, List.flatMap_cons, List.map_append,
      List.foldl_append, List.foldl_map]

section
variable (reports : List FeatureReport) (strict : Bool)

theorem of_eq : of reports strict =
    { scenarios := ((reports.flatMap (·.scenarios)).map (·.status)).foldl .record {}
      steps := (((reports.flatMap (·.scenarios)).flatMap (·.steps)).map (·.outcome.status)).foldl .record {}
      strict } := foldl_record _ _

theorem total_scenarios_of : (of reports strict).scenarios.total = (reports.flatMap (·.scenarios)).length := by
  rw [of_eq, Tally.total_foldl_record, List.length_map]
  exact Nat.zero_add _

theorem total_steps_of : (of reports strict).steps.total =
    ((reports.flatMap (·.scenarios)).flatMap (·.steps)).length := by
  rw [of_eq, Tally.total_foldl_record, List.length_map]
  exact Nat.zero_add _

theorem count_scenarios_of (status : Status) : (of reports strict).scenarios.count status =
    ((reports.flatMap (·.scenarios)).map (·.status)).count status := by
  rw [of_eq, Tally.count_foldl_record, Tally.count_empty, Nat.zero_add]

theorem count_steps_of (status : Status) : (of reports strict).steps.count status =
    (((reports.flatMap (·.scenarios)).flatMap (·.steps)).map (·.outcome.status)).count status := by
  rw [of_eq, Tally.count_foldl_record, Tally.count_empty, Nat.zero_add]

theorem of_append (more : List FeatureReport) : of (reports ++ more) strict =
    { scenarios := (of reports strict).scenarios + (of more strict).scenarios
      steps := (of reports strict).steps + (of more strict).steps
      strict } := by
  simp only [of_eq, List.flatMap_append, List.map_append, Tally.foldl_record_append]

end

theorem isSuccess_iff (s : Summary) : s.isSuccess = true ↔
    s.scenarios.count .failed = 0 ∧ (s.strict = true → s.steps.count .undefined = 0) := by
  unfold isSuccess Tally.count
  cases s.strict <;> simp

end Summary

/-- Among scenarios of which none failed, those with an undefined step are those that are undefined. -/
theorem ScenarioReport.forall_step_ne_undefined_iff {scenarios : List ScenarioReport}
    (hfailed : ∀ r ∈ scenarios, r.status ≠ .failed) :
    (∀ x ∈ scenarios.flatMap (·.steps), x.outcome.status ≠ .undefined) ↔
      ∀ r ∈ scenarios, r.status ≠ .undefined := by
  constructor
  · intro h r hr hundefined
    -- An undefined scenario has an undefined step.
    obtain ⟨-, x, hx, hstep⟩ := (status_eq_undefined_iff r).1 hundefined
    exact h x (List.mem_flatMap.2 ⟨r, hr, hx⟩) hstep
  · intro h x hx hstep
    -- The scenario of an undefined step is undefined, as no failure comes before that.
    obtain ⟨r, hr, hx⟩ := List.mem_flatMap.1 hx
    exact h r hr ((status_eq_undefined_iff r).2 ⟨hfailed r hr, x, hx, hstep⟩)

/-- The count of failed scenarios and the count of undefined steps together tell what the statuses of the
scenarios tell. -/
theorem Summary.isSuccess_of_iff (reports : List FeatureReport) (strict : Bool) :
    (Summary.of reports strict).isSuccess = true ↔ ∀ r ∈ reports.flatMap (·.scenarios),
      r.status ≠ .failed ∧ (strict = true → r.status ≠ .undefined) := by
  let scenarios := reports.flatMap (·.scenarios)
  have hstrict : (Summary.of reports strict).strict = strict := congrArg Summary.strict (of_eq reports strict)
  have hfailed : (Summary.of reports strict).scenarios.count .failed = 0 ↔
      ∀ r ∈ scenarios, r.status ≠ .failed := by
    rw [count_scenarios_of, List.count_eq_zero]
    simp [scenarios]
  have hundefined : (Summary.of reports strict).steps.count .undefined = 0 ↔
      ∀ x ∈ scenarios.flatMap (·.steps), x.outcome.status ≠ .undefined := by
    rw [count_steps_of, List.count_eq_zero]
    simp [scenarios]
  rw [isSuccess_iff, hstrict, hfailed, hundefined]
  constructor
  · rintro ⟨hnone, hsteps⟩ r hr
    refine ⟨hnone r hr, fun h => ?_⟩
    exact (ScenarioReport.forall_step_ne_undefined_iff hnone).1 (hsteps h) r hr
  · intro h
    have hnone : ∀ r ∈ scenarios, r.status ≠ .failed := fun r hr => (h r hr).1
    refine ⟨hnone, fun hcounts => ?_⟩
    exact (ScenarioReport.forall_step_ne_undefined_iff hnone).2 fun r hr => (h r hr).2 hcounts

/-- A summary counts every scenario under its status and every step under that of its outcome, and nothing
else.  The tallies of two lists of reports put together are the sums of their tallies.  A run is a success
when no scenario failed and, where undefined steps count, none is undefined. -/
theorem Summary.counts_once (reports : List FeatureReport) (strict : Bool) :
    let summary := Summary.of reports strict
    let scenarios := reports.flatMap (·.scenarios)
    let steps := scenarios.flatMap (·.steps)
    summary.scenarios.total = scenarios.length ∧
    (∀ status, summary.scenarios.count status = (scenarios.map (·.status)).count status) ∧
    summary.steps.total = steps.length ∧
    (∀ status, summary.steps.count status = (steps.map (·.outcome.status)).count status) ∧
    (∀ more, (Summary.of (reports ++ more) strict).scenarios =
        summary.scenarios + (Summary.of more strict).scenarios ∧
      (Summary.of (reports ++ more) strict).steps = summary.steps + (Summary.of more strict).steps) ∧
    (summary.isSuccess = true ↔
      ∀ r ∈ scenarios, r.status ≠ .failed ∧ (strict = true → r.status ≠ .undefined)) := by
  refine ⟨total_scenarios_of reports strict, count_scenarios_of reports strict,
    total_steps_of reports strict, count_steps_of reports strict, fun more => ?_,
    isSuccess_of_iff reports strict⟩
  have happend := of_append reports strict more
  exact ⟨congrArg Summary.scenarios happend, congrArg Summary.steps happend⟩

end Gherkin
