import Gherkin.Proofs.Run.Isolation
import Gherkin.Run.Feature

/-!
# What a run accounts for

Every scenario of a feature is reported, excluded by its tags or left when the run has ended.  Those that
are reported are the selected ones, in their order, up to the one whose failure ends the run, and each has
the report that it has alone.
-/

namespace Gherkin

/-! ## Up to the first -/

section
variable {α : Type} {p : α → Bool} {xs : List α}

def upToFirst (p : α → Bool) : List α → List α
  | [] => []
  | x :: xs => if p x then [x] else x :: upToFirst p xs

theorem upToFirst_cons_of_pos {x : α} (h : p x = true) (xs : List α) : upToFirst p (x :: xs) = [x] :=
  if_pos h

theorem upToFirst_cons_of_neg {x : α} (h : p x = false) (xs : List α) :
    upToFirst p (x :: xs) = x :: upToFirst p xs := by
  rw [upToFirst, if_neg (by rw [h]; exact Bool.false_ne_true)]

theorem upToFirst_isPrefix (p : α → Bool) (xs : List α) : upToFirst p xs <+: xs := by
  induction xs with
  | nil => exact List.prefix_rfl
  | cons x xs ih =>
    cases hx : p x with
    | true =>
      rw [upToFirst_cons_of_pos hx]
      exact ⟨xs, rfl⟩
    | false =>
      rw [upToFirst_cons_of_neg hx]
      exact List.cons_prefix_cons.2 ⟨rfl, ih⟩

theorem upToFirst_eq_self (h : ∀ x ∈ upToFirst p xs, p x = false) : upToFirst p xs = xs := by
  induction xs with
  | nil => rfl
  | cons x xs ih =>
    cases hx : p x with
    | true =>
      rw [upToFirst_cons_of_pos hx] at h
      exact absurd (hx.symm.trans (h x List.mem_cons_self)) Bool.false_ne_true.symm
    | false =>
      rw [upToFirst_cons_of_neg hx] at h ⊢
      rw [ih fun y hy => h y (List.mem_cons_of_mem x hy)]

/-- Where a member satisfies `p`, the last one does and none before it. -/
theorem upToFirst_eq_append (h : ∃ x ∈ upToFirst p xs, p x = true) :
    ∃ before last, upToFirst p xs = before ++ [last] ∧ p last = true ∧ ∀ x ∈ before, p x = false := by
  induction xs with
  | nil =>
    obtain ⟨x, hx, -⟩ := h
    cases hx
  | cons x xs ih =>
    cases hx : p x with
    | true =>
      rw [upToFirst_cons_of_pos hx]
      exact ⟨[], x, rfl, hx, by simp⟩
    | false =>
      rw [upToFirst_cons_of_neg hx] at h ⊢
      obtain ⟨y, hy, hpy⟩ := h
      have hmem : y ∈ upToFirst p xs := by
        rcases List.mem_cons.1 hy with rfl | hy
        · exact absurd (hx.symm.trans hpy) Bool.false_ne_true
        · exact hy
      obtain ⟨before, last, heq, hlast, hbefore⟩ := ih ⟨y, hmem, hpy⟩
      refine ⟨x :: before, last, by rw [heq, List.cons_append], hlast, ?_⟩
      exact List.forall_mem_cons.2 ⟨hx, hbefore⟩

/-- `part` is what gets done of `all` if a failure ends the work where it `stops`: everything, or what
leads up to the first failure and that one. -/
structure DoneUpTo (stops : Bool) (fails : α → Prop) (all part : List α) : Prop where
  initial : part <+: all
  whole : stops = false ∨ (∀ x ∈ part, ¬ fails x) → part = all
  ended : stops = true → (∃ x ∈ part, fails x) →
    ∃ before last, part = before ++ [last] ∧ fails last ∧ ∀ x ∈ before, ¬ fails x

theorem doneUpTo_upToFirst {stops : Bool} {fails : α → Prop}
    (hp : ∀ x, p x = true ↔ fails x ∧ stops = true) (xs : List α) :
    DoneUpTo stops fails xs (upToFirst p xs) where
  initial := upToFirst_isPrefix p xs
  whole h := by
    apply upToFirst_eq_self
    intro x hx
    rw [Bool.eq_false_iff, Ne, hp]
    rintro ⟨hfails, hstops⟩
    rcases h with hgoes | hnone
    · exact Bool.false_ne_true (hgoes.symm.trans hstops)
    · exact hnone x hx hfails
  ended hstops h := by
    obtain ⟨x, hx, hfails⟩ := h
    obtain ⟨before, last, heq, hlast, hbefore⟩ := upToFirst_eq_append ⟨x, hx, (hp x).2 ⟨hfails, hstops⟩⟩
    refine ⟨before, last, heq, ((hp last).1 hlast).1, ?_⟩
    intro y hy hyfails
    exact Bool.false_ne_true ((hbefore y hy).symm.trans ((hp y).2 ⟨hyfails, hstops⟩))

end

variable {World : Type}

namespace Runner

def selected (r : Runner World) (f : Feature) (scenarios : List Scenario) : List Scenario :=
  scenarios.filter fun x => r.settings.selects (f.effectiveTags x)

/-- The report of a scenario of a feature when nothing else is run. -/
def reportAlone (r : Runner World) (s : Session World) (f : Feature) (scenario : Scenario) : ScenarioReport :=
  (r.runScenario s f.background scenario (f.effectiveTags scenario)).1

def endsWith (r : Runner World) (report : ScenarioReport) : Bool :=
  report.status = .failed && r.settings.failFast

def endsWithFeature (r : Runner World) (report : FeatureReport) : Bool :=
  report.hasFailed && r.settings.failFast

theorem selected_allScenarios (r : Runner World) (f : Feature) :
    r.selected f f.allScenarios = (r.settings.tags.map f.filterByTags).getD f.allScenarios := by
  unfold selected Settings.selects
  cases r.settings.tags with
  | none => exact List.filter_eq_self.2 fun _ _ => rfl
  | some e => rfl

/-! ## The scenarios of a feature -/

section
variable (r : Runner World) (f : Feature) {scenario : Scenario}

theorem selected_cons_of_pos (h : r.settings.selects (f.effectiveTags scenario) = true)
    (scenarios : List Scenario) :
    r.selected f (scenario :: scenarios) = scenario :: r.selected f scenarios := List.filter_cons_of_pos h

theorem selected_cons_of_neg (h : r.settings.selects (f.effectiveTags scenario) = false)
    (scenarios : List Scenario) : r.selected f (scenario :: scenarios) = r.selected f scenarios :=
  List.filter_cons_of_neg (by rw [h]; exact Bool.false_ne_true)

/-- A run that has ended reports nothing more and counts what is left. -/
theorem runScenarios_stopped (s : Session World) (scenarios : List Scenario) :
    (r.runScenarios f true s scenarios).1 =
      ⟨f.name, [], scenarios.length - (r.selected f scenarios).length, (r.selected f scenarios).length⟩ := by
  induction scenarios generalizing s with
  | nil => rfl
  | cons scenario scenarios ih =>
    have hle : (r.selected f scenarios).length ≤ scenarios.length := List.length_filter_le _ _
    rw [runScenarios]
    cases hselects : r.settings.selects (f.effectiveTags scenario) with
    | true =>
      rw [selected_cons_of_pos r f hselects]
      simp only [Bool.not_true, Bool.false_eq_true, if_false, if_true, ih, List.length_cons]
      congr 1
      omega
    | false =>
      rw [selected_cons_of_neg r f hselects]
      simp only [Bool.not_false, if_true, ih, List.length_cons]
      congr 1
      omega

/-- The report of a run lists the selected scenarios, each as if alone, up to one that ends it. -/
theorem runScenarios_eq (hhooks : r.hooks.GoByMemory) {s₀ : Session World}
    (hregistry : s₀.registry.GoesByMemory) {s : Session World}
    (h : s.registry.unmarked = s₀.registry.unmarked) (scenarios : List Scenario) :
    (r.runScenarios f false s scenarios).1 =
      ⟨f.name, upToFirst r.endsWith ((r.selected f scenarios).map (r.reportAlone s₀ f)),
        scenarios.length - (r.selected f scenarios).length,
        (r.selected f scenarios).length -
          (upToFirst r.endsWith ((r.selected f scenarios).map (r.reportAlone s₀ f))).length⟩ := by
  induction scenarios generalizing s with
  | nil => rfl
  | cons scenario scenarios ih =>
    have hle : (r.selected f scenarios).length ≤ scenarios.length := List.length_filter_le _ _
    rw [runScenarios]
    cases hselects : r.settings.selects (f.effectiveTags scenario) with
    | false =>
      rw [selected_cons_of_neg r f hselects]
      simp only [Bool.not_false, if_true, List.length_cons]
      rw [ih (s := s.log _) h]
      dsimp only
      congr 1
      omega
    | true =>
      let ran := r.runScenario s f.background scenario (f.effectiveTags scenario)
      have hreport : ran.1 = r.reportAlone s₀ f scenario :=
        (r.runScenario_report_congr hhooks hregistry h.symm f.background scenario
          (f.effectiveTags scenario)).symm
      have hran : r.runScenario s f.background scenario (f.effectiveTags scenario) =
          (r.reportAlone s₀ f scenario, ran.2) := Prod.ext hreport rfl
      have hmarks : ran.2.registry.unmarked = s₀.registry.unmarked :=
        (r.unmarked_runScenario s f.background scenario (f.effectiveTags scenario)).trans h
      rw [selected_cons_of_pos r f hselects]
      simp only [Bool.not_true, Bool.false_eq_true, if_false, List.length_cons, List.map_cons, hran]
      cases hends : r.endsWith (r.reportAlone s₀ f scenario) with
      | true =>
        rw [upToFirst_cons_of_pos hends]
        unfold endsWith at hends
        rw [hends, runScenarios_stopped]
        dsimp only
        congr 1
        omega
      | false =>
        rw [upToFirst_cons_of_neg hends]
        unfold endsWith at hends
        -- The warning about a failure that does not end the run changes no definition.
        rw [hends, ih]
        · dsimp only [List.length_cons]
          congr 1 <;> omega
        · split
          · exact hmarks
          · exact hmarks

/-- Running scenarios changes a registry in marks only. -/
theorem unmarked_runScenarios (stopped : Bool) (s : Session World) (scenarios : List Scenario) :
    (r.runScenarios f stopped s scenarios).2.registry.unmarked = s.registry.unmarked := by
  induction scenarios generalizing stopped s with
  | nil => rfl
  | cons scenario scenarios ih =>
    rw [runScenarios]
    dsimp only
    split
    · exact ih stopped _
    · split
      · exact ih stopped s
      · refine (ih _ _).trans ?_
        split
        · exact r.unmarked_runScenario s f.background scenario (f.effectiveTags scenario)
        · exact r.unmarked_runScenario s f.background scenario (f.effectiveTags scenario)

end

/-! ## Features -/

section
variable (r : Runner World) (hhooks : r.hooks.GoByMemory) {s₀ : Session World}
  (hregistry : s₀.registry.GoesByMemory) {s : Session World}
  (h : s.registry.unmarked = s₀.registry.unmarked)
include hhooks hregistry h

theorem runFeature_eq (f : Feature) :
    (r.runFeature s f).1 =
      ⟨f.name, upToFirst r.endsWith ((r.selected f f.allScenarios).map (r.reportAlone s₀ f)),
        f.allScenarios.length - (r.selected f f.allScenarios).length,
        (r.selected f f.allScenarios).length -
          (upToFirst r.endsWith ((r.selected f f.allScenarios).map (r.reportAlone s₀ f))).length⟩ :=
  r.runScenarios_eq f hhooks hregistry (s := s.log [⟨.debug, "running feature", [("feature", f.name)]⟩]) h
    f.allScenarios

theorem runFeatures_eq (fs : List Feature) :
    (r.runFeatures s fs).1 = upToFirst r.endsWithFeature
      (fs.map fun f => (r.runFeature s₀ f).1) := by
  induction fs generalizing s with
  | nil => rfl
  | cons f fs ih =>
    have hreport : (r.runFeature s f).1 = (r.runFeature s₀ f).1 :=
      (r.runFeature_eq hhooks hregistry h f).trans (r.runFeature_eq hhooks hregistry rfl f).symm
    have hmarks : (r.runFeature s f).2.registry.unmarked = s₀.registry.unmarked :=
      (r.unmarked_runScenarios f false _ f.allScenarios).trans h
    rw [runFeatures, List.map_cons, ← hreport]
    dsimp only
    cases hends : r.endsWithFeature (r.runFeature s f).1 with
    | true =>
      rw [upToFirst_cons_of_pos hends]
      unfold endsWithFeature at hends
      rw [hends]
      rfl
    | false =>
      rw [upToFirst_cons_of_neg hends, ← ih hmarks]
      unfold endsWithFeature at hends
      rw [hends]
      rfl

end

end Runner

theorem FeatureReport.hasFailed_iff (r : FeatureReport) :
    r.hasFailed = true ↔ ∃ x ∈ r.scenarios, x.status = .failed := by
  simp [hasFailed]

/-- Every scenario of a feature is counted once, and those that are reported are the selected ones up to a
failure that ends the run, each with the report it has from any session with the same definitions; the
features are reported likewise. -/
theorem Runner.run_accounts (r : Runner World) (hhooks : r.hooks.GoByMemory) (s : Session World)
    (hregistry : s.registry.GoesByMemory) :
    (∀ f, ∃ report s', r.runFeature s f = (report, s') ∧
      report.scenarios.length + report.filtered + report.notRun = f.allScenarios.length ∧
      (∀ failFast, (Runner.runFeature { r with settings := { r.settings with failFast } } s f).1.filtered =
        report.filtered) ∧
      ∀ s₀ : Session World, s₀.registry.unmarked = s.registry.unmarked →
        DoneUpTo r.settings.failFast (fun x => x.status = .failed)
          (((r.settings.tags.map f.filterByTags).getD f.allScenarios).map fun scenario =>
            (r.runScenario s₀ f.background scenario (f.effectiveTags scenario)).1)
          report.scenarios) ∧
    ∀ fs, ∃ reports s', r.runFeatures s fs = (reports, s') ∧
      ∀ s₀ : Session World, s₀.registry.unmarked = s.registry.unmarked →
        DoneUpTo r.settings.failFast (fun report => ∃ x ∈ report.scenarios, x.status = .failed)
          (fs.map fun f => (r.runFeature s₀ f).1) reports := by
  have hends : ∀ x : ScenarioReport, r.endsWith x = true ↔ x.status = .failed ∧ r.settings.failFast = true := by
    simp [endsWith]
  have hendsFeature : ∀ x : FeatureReport, r.endsWithFeature x = true ↔
      (∃ y ∈ x.scenarios, y.status = .failed) ∧ r.settings.failFast = true := by
    simp [endsWithFeature, FeatureReport.hasFailed_iff]
  constructor
  · intro f
    have hle : (r.selected f f.allScenarios).length ≤ f.allScenarios.length := List.length_filter_le _ _
    -- What is reported is a prefix of the selected, so the three counts add up.
    have hprefix := (upToFirst_isPrefix r.endsWith
      ((r.selected f f.allScenarios).map (r.reportAlone s f))).length_le
    rw [List.length_map] at hprefix
    refine ⟨(r.runFeature s f).1, (r.runFeature s f).2, rfl, ?_, ?_, ?_⟩
    · rw [r.runFeature_eq hhooks hregistry rfl f]
      dsimp only
      omega
    · intro failFast
      -- The tags alone decide what is filtered.
      let other : Runner World := { r with settings := { r.settings with failFast } }
      have hother := congrArg FeatureReport.filtered (other.runFeature_eq hhooks hregistry rfl f)
      have hreport := congrArg FeatureReport.filtered (r.runFeature_eq hhooks hregistry rfl f)
      exact hother.trans hreport.symm
    · intro s₀ hsame
      rw [r.runFeature_eq hhooks (hregistry.congr hsame) hsame.symm f, ← r.selected_allScenarios]
      exact doneUpTo_upToFirst hends _
  · intro fs
    refine ⟨(r.runFeatures s fs).1, (r.runFeatures s fs).2, rfl, ?_⟩
    intro s₀ hsame
    rw [r.runFeatures_eq hhooks (hregistry.congr hsame) hsame.symm fs]
    exact doneUpTo_upToFirst hendsFeature _

/-- The handler fails where it finds its own mark in the memory and counts its calls in the world: a scenario
is excluded, two pass, one calls the handler twice and fails, and one is left. -/
theorem Runner.run_accounts_of_marked_memory : ∃ (r : Runner Nat) (s : Session Nat) (f : Feature)
    (report : FeatureReport) (s' : Session Nat), r.hooks.GoByMemory ∧ s.registry.GoesByMemory ∧
      r.settings.failFast = true ∧ r.runFeature s f = (report, s') ∧
      report.scenarios.map (·.status) = [.passed, .passed, .failed] ∧ report.filtered = 1 ∧
      report.notRun = 1 ∧ s'.scene.world = 4 ∧
      report.scenarios.length + report.filtered + report.notRun = f.allScenarios.length ∧
      DoneUpTo true (fun x => x.status = .failed)
        (((r.settings.tags.map f.filterByTags).getD f.allScenarios).map fun scenario =>
          (r.runScenario s f.background scenario (f.effectiveTags scenario)).1) report.scenarios := by
  let handler : Handler Nat := fun _ σ =>
    if σ.memory.contains "seen" then (.error (.other "seen"), { σ with world := σ.world + 1 })
    else (.ok (), ⟨σ.memory.insert "seen" (.int 1), σ.world + 1⟩)
  let s : Session Nat :=
    { registry := .push {} (Registration.definition ⟨none, "a", handler, ⟨"steps", 1⟩⟩ (.ofParts "a" [.literal 'a']))
      scene := ⟨.empty, 0⟩ }
  let r : Runner Nat :=
    { settings := { failFast := true, tags := some ⟨"not @x", .not (.tag "@x")⟩ } }
  let step : Step := ⟨.given, "a", none, none, .start⟩
  let once (tags : List String) : Child := .scenario ⟨"", none, tags, [step], .start⟩
  let twice : Child := .scenario ⟨"", none, [], [step, step], .start⟩
  let f : Feature := ⟨"", none, [], none, [once [], once ["@x"], once [], twice, once []], .start⟩
  have hhooks : r.hooks.GoByMemory := ⟨nofun, nofun, nofun, nofun⟩
  have hregistry : s.registry.GoesByMemory := by
    intro d hd arguments σ τ hmemory
    rw [List.mem_singleton.1 hd]
    dsimp only [Registration.definition, handler]
    rw [hmemory]
    split
    · exact ⟨rfl, rfl⟩
    · exact ⟨rfl, rfl⟩
  have hstatuses : (r.runFeature s f).1.scenarios.map (·.status) = [.passed, .passed, .failed] := by
    decide +kernel
  have hcounts : (r.runFeature s f).1.filtered = 1 ∧ (r.runFeature s f).1.notRun = 1 := by decide +kernel
  have hworld : (r.runFeature s f).2.scene.world = 4 := by decide +kernel
  obtain ⟨report, s', hrun, hlength, -, hdone⟩ := (r.run_accounts hhooks s hregistry).1 f
  rw [hrun] at hstatuses hcounts hworld
  exact ⟨r, s, f, report, s', hhooks, hregistry, rfl, hrun, hstatuses, hcounts.1, hcounts.2, hworld,
    hlength, hdone s rfl⟩

end Gherkin
