import Gherkin.Proofs.Document.Stopping
import Gherkin.Proofs.Document.Views

/-!
# The parts of a feature, one at a time

Reading the parts of a feature is one step over and over: the tags and the token after them are read
as one part, or recorded as a fault.  A step knows of the feature only whether a background may still
come.  So what the steps do before the header of a child does not depend on what follows, and two
sources that show the same text go through the same steps.
-/

namespace Gherkin

inductive FeaturePart where
  | background (b : Background)
  | child (c : Child)

namespace FeaturePart

def bar : FeaturePart → OrderFault
  | .background _ => .secondBackground
  | .child _ => .lateBackground

def relocate (f : Location → Location) : FeaturePart → FeaturePart
  | .background b => .background (b.relocate f)
  | .child c => .child (c.relocate f)

def child? : FeaturePart → Option Child
  | .background _ => none
  | .child c => some c

theorem child?_relocate (f : Location → Location) (p : FeaturePart) :
    (p.relocate f).child? = p.child?.map (Child.relocate f) := by
  cases p <;> rfl

end FeaturePart

namespace Feature

def add (f : Feature) : FeaturePart → Feature
  | .background b => { f with background := some b }
  | .child c => { f with children := f.children ++ [c] }

def addAll (f : Feature) (parts : List FeaturePart) : Feature := parts.foldl add f

theorem addAll_append (f : Feature) (parts more : List FeaturePart) :
    f.addAll (parts ++ more) = (f.addAll parts).addAll more := List.foldl_append

theorem addAll_eq_of_children (f : Feature) {parts : List FeaturePart}
    (h : ∀ p ∈ parts, p.child?.isSome) :
    f.addAll parts = { f with children := f.children ++ parts.filterMap FeaturePart.child? } := by
  induction parts generalizing f with
  | nil => simp [addAll]
  | cons p parts ih =>
    have hp := h p List.mem_cons_self
    have hparts := fun q hq => h q (List.mem_cons_of_mem p hq)
    cases p with
    | background b => simp [FeaturePart.child?] at hp
    | child c =>
      show (f.add (.child c)).addAll parts = _
      rw [ih (f.add (.child c)) hparts]
      simp [add, FeaturePart.child?]

end Feature

namespace Reader

/-! ## One step -/

variable {source : List Char} {ts : List Token}

def part? (source : List Char) (bar : Option OrderFault) (ts : List Token) :
    Option (Reading (Option FeaturePart)) :=
  match skipTags ts with
  | [] => none
  | t :: more =>
    let run := tagRun ts
    if t.kind = .block .background then
      let read := background source t more
      some ⟨if bar.isNone then some (.background read.value) else none,
        (run.location.map (order .tagsOnBackground)).toList ++ (bar.map (order · t.location)).toList ++
          read.errors, read.rest⟩
    else if t.kind = .block .scenario ∨ t.kind = .block .scenarioOutline then
      let read := child source run.tags t more
      some ⟨some (.child read.value), read.errors, read.rest⟩
    else if t.kind = .block .examples then
      let read := examples source [] t more
      some ⟨none, order .examplesOutsideOutline t.location :: read.errors, read.rest⟩
    else some ⟨none, run.stray ++ [order (strayFault t.kind) t.location], synchronize more⟩

theorem part?_of_skipTags_eq_nil (bar : Option OrderFault) (h : skipTags ts = []) :
    part? source bar ts = none := by
  unfold part?
  rw [h]

theorem skipTags_eq_nil_of_part? {bar : Option OrderFault} (h : part? source bar ts = none) :
    skipTags ts = [] := by
  cases hskip : skipTags ts with
  | nil => rfl
  | cons t more =>
    unfold part? at h
    rw [hskip] at h
    dsimp only at h
    split at h
    · simp at h
    · split at h
      · simp at h
      · split at h <;> simp at h

theorem body_of_part?_eq_none {f : Feature} (h : part? source (backgroundFault? f) ts = none) :
    body source f ts = (f, (tagRun ts).stray) :=
  body_of_skipTags_eq_nil (skipTags_eq_nil_of_part? h)

theorem body_of_part?_eq_some {f : Feature} {r : Reading (Option FeaturePart)}
    (h : part? source (backgroundFault? f) ts = some r) :
    body source f ts = Prod.map id (r.errors ++ ·) (body source (f.addAll r.value.toList) r.rest) := by
  cases hskip : skipTags ts with
  | nil =>
    rw [part?_of_skipTags_eq_nil _ hskip] at h
    simp at h
  | cons t more =>
    unfold part? at h
    rw [hskip] at h
    dsimp only at h
    by_cases hbackground : t.kind = .block .background
    · rw [if_pos hbackground] at h
      rw [body_of_background hskip hbackground, ← Option.some.inj h]
      cases backgroundFault? f with
      | none => rfl
      | some fault => rfl
    rw [if_neg hbackground] at h
    by_cases hchild : t.kind = .block .scenario ∨ t.kind = .block .scenarioOutline
    · rw [if_pos hchild] at h
      rw [body_of_child hskip hchild, ← Option.some.inj h]
      rfl
    rw [if_neg hchild] at h
    by_cases hexamples : t.kind = .block .examples
    · rw [if_pos hexamples] at h
      rw [body_of_examples hskip hexamples, ← Option.some.inj h]
      rfl
    rw [if_neg hexamples] at h
    have hstray : ∀ b, t.kind = .block b → b = .feature := by
      intro b hb
      cases b <;> simp_all
    rw [body_of_stray hskip hstray, ← Option.some.inj h]
    simp [Prod.map, Feature.addAll]

theorem length_rest_lt_of_part? {bar : Option OrderFault} {r : Reading (Option FeaturePart)}
    (h : part? source bar ts = some r) : r.rest <:+ ts ∧ r.rest.length < ts.length := by
  cases hskip : skipTags ts with
  | nil =>
    rw [part?_of_skipTags_eq_nil _ hskip] at h
    simp at h
  | cons t more =>
    have hmore : t :: more <:+ ts := hskip ▸ skipTags_suffix ts
    have hrest : r.rest <:+ more := by
      unfold part? at h
      rw [hskip] at h
      dsimp only at h
      split at h
      · rw [← Option.some.inj h]
        exact background_suffix source t more
      · split at h
        · rw [← Option.some.inj h]
          exact child_suffix source _ t more
        · split at h
          · rw [← Option.some.inj h]
            exact examples_suffix source [] t more
          · rw [← Option.some.inj h]
            exact synchronize_suffix more
    have hlength := hrest.length_le
    have hts := hmore.length_le
    rw [List.length_cons] at hts
    exact ⟨(hrest.trans (List.suffix_cons t more)).trans hmore, by omega⟩

/-- A step adds a background or a child, which it reads at the first token that is no tag. -/
theorem exists_of_mem_part? {bar : Option OrderFault} {r : Reading (Option FeaturePart)}
    (h : part? source bar ts = some r) {p : FeaturePart} (hp : p ∈ r.value) :
    ∃ t more, t :: more <:+ ts ∧ (p = .background (background source t more).value ∨
      p = .child (child source (tagRun ts).tags t more).value) := by
  cases hskip : skipTags ts with
  | nil =>
    rw [part?_of_skipTags_eq_nil _ hskip] at h
    simp at h
  | cons t more =>
    refine ⟨t, more, hskip ▸ skipTags_suffix ts, ?_⟩
    unfold part? at h
    rw [hskip] at h
    dsimp only at h
    split at h
    · rw [← Option.some.inj h] at hp
      cases bar with
      | none => exact Or.inl (by simpa using hp.symm)
      | some fault => simp at hp
    · split at h
      · rw [← Option.some.inj h] at hp
        exact Or.inr (by simpa using hp.symm)
      · split at h <;> · rw [← Option.some.inj h] at hp; simp at hp

/-- What every step keeps true of a feature, reading all its parts keeps true, with and without faults. -/
theorem keeps_body {P : Feature → Prop} {f : Feature} (hf : P f)
    (hpart : ∀ g us r, us <:+ ts → part? source (backgroundFault? g) us = some r → P g →
      P (g.addAll r.value.toList)) : P (body source f ts).1 := by
  -- A step leaves fewer tokens.
  induction hn : ts.length using Nat.strong_induction_on generalizing ts f with
  | h n ih =>
    cases hnext : part? source (backgroundFault? f) ts with
    | none => rwa [body_of_part?_eq_none hnext]
    | some r =>
      obtain ⟨hsuffix, hlength⟩ := length_rest_lt_of_part? hnext
      rw [body_of_part?_eq_some hnext]
      refine ih r.rest.length (hn ▸ hlength) (hpart f ts r (List.suffix_refl ts) hnext hf) ?_ rfl
      exact fun g us s hus => hpart g us s (hus.trans hsuffix)

/-! ## What follows, and where -/

/-- A part is read as if the header of a child, or nothing, did not follow. -/
theorem part?_append {bar : Option OrderFault} {r : Reading (Option FeaturePart)} {tail : List Token}
    (hstops : Stops ts tail) (htail : BeforeChild tail) (h : part? source bar ts = some r) :
    part? source bar (ts ++ tail) = some (r.before tail) := by
  cases hskip : skipTags ts with
  | nil =>
    rw [part?_of_skipTags_eq_nil _ hskip] at h
    simp at h
  | cons t more =>
    have hmore : Stops (t :: more) tail := hstops.of_suffix (hskip ▸ skipTags_suffix ts)
    unfold part? at h ⊢
    rw [hskip] at h
    rw [skipTags_append htail, hskip, tagRun_append htail]
    dsimp only [List.cons_append] at h ⊢
    by_cases hbackground : t.kind = .block .background
    · rw [if_pos hbackground] at h ⊢
      rw [background_append hmore (by simp [isGap, hbackground]), ← Option.some.inj h]
      rfl
    rw [if_neg hbackground] at h ⊢
    by_cases hchild : t.kind = .block .scenario ∨ t.kind = .block .scenarioOutline
    · have hgap : isGap t = false := by rcases hchild with hk | hk <;> simp [isGap, hk]
      rw [if_pos hchild] at h ⊢
      rw [child_append hmore hgap htail, ← Option.some.inj h]
      rfl
    rw [if_neg hchild] at h ⊢
    by_cases hexamples : t.kind = .block .examples
    · rw [if_pos hexamples] at h ⊢
      rw [examples_append hmore (by simp [isGap, hexamples]), ← Option.some.inj h]
      rfl
    rw [if_neg hexamples] at h ⊢
    rw [synchronize_append hmore.tail, ← Option.some.inj h]
    rfl

theorem part?_map {v : View} (bar : Option OrderFault) (h : ∀ t ∈ ts, v.Shows t) :
    part? v.target bar (ts.map v.token) =
      (part? v.source bar ts).map (v.reading (Option.map (FeaturePart.relocate v.place))) := by
  cases hskip : skipTags ts with
  | nil =>
    rw [part?_of_skipTags_eq_nil bar hskip,
      part?_of_skipTags_eq_nil bar (by rw [skipTags_map, hskip]; rfl)]
    rfl
  | cons t more =>
    have hmore : t :: more <:+ ts := hskip ▸ skipTags_suffix ts
    have ht := h t (hmore.subset List.mem_cons_self)
    have hmore' : ∀ u ∈ more, v.Shows u := fun u hu => h u (hmore.subset (List.mem_cons_of_mem t hu))
    have hkind : (v.token t).kind = t.kind := rfl
    unfold part?
    rw [skipTags_map, hskip, List.map_cons]
    dsimp only
    rw [stray_map, tagRun_map, hkind]
    by_cases hbackground : t.kind = .block .background
    · rw [if_pos hbackground, if_pos hbackground,
        background_map (by rw [hbackground]; rfl) ht hmore']
      cases bar <;> cases (tagRun ts).location <;> rfl
    rw [if_neg hbackground, if_neg hbackground]
    by_cases hchild : t.kind = .block .scenario ∨ t.kind = .block .scenarioOutline
    · rw [if_pos hchild, if_pos hchild,
        child_map (by rcases hchild with hk | hk <;> rw [hk] <;> rfl) ht hmore']
      rfl
    rw [if_neg hchild, if_neg hchild]
    by_cases hexamples : t.kind = .block .examples
    · rw [if_pos hexamples, if_pos hexamples, examples_map [] (by rw [hexamples]; rfl) ht hmore']
      rfl
    rw [if_neg hexamples, if_neg hexamples, synchronize_map]
    simp only [Option.map_some, View.reading, List.map_append]
    rfl

/-! ## All steps -/

def barAfter (bar : Option OrderFault) (part : Option FeaturePart) : Option OrderFault :=
  bar.or (part.map FeaturePart.bar)

/-- From the tokens before a child the parts and the errors come, and `run` is left for the child. -/
def Leaves (source : List Char) (bar : Option OrderFault) (ts : List Token) (parts : List FeaturePart)
    (errors : List ParseError) (run : List Token) : Prop :=
  ∀ f tail, backgroundFault? f = bar → Stops ts tail → BeforeChild tail →
    body source f (ts ++ tail) =
      Prod.map id (errors ++ ·) (body source (f.addAll parts) (run ++ tail))

theorem Leaves.refl (source : List Char) (bar : Option OrderFault) (ts : List Token) :
    Leaves source bar ts [] [] ts := by
  intro f tail _ _ _
  rfl

theorem value_of_part? {bar : Option OrderFault} {r : Reading (Option FeaturePart)}
    (h : part? source bar ts = some r) :
    bar = none ∨ ∀ p ∈ r.value, p.child?.isSome := by
  cases hskip : skipTags ts with
  | nil =>
    rw [part?_of_skipTags_eq_nil _ hskip] at h
    simp at h
  | cons t more =>
    unfold part? at h
    rw [hskip] at h
    dsimp only at h
    split at h
    · rw [← Option.some.inj h]
      cases bar with
      | none => exact Or.inl rfl
      | some fault => exact Or.inr (by simp)
    · right
      split at h
      · rw [← Option.some.inj h]
        simp [FeaturePart.child?]
      · split at h <;> · rw [← Option.some.inj h]; simp

theorem backgroundFault?_addAll {f : Feature} {part : Option FeaturePart}
    (h : backgroundFault? f = none ∨ ∀ p ∈ part, p.child?.isSome) :
    backgroundFault? (f.addAll part.toList) = barAfter (backgroundFault? f) part := by
  unfold backgroundFault? at h ⊢
  unfold barAfter
  cases part with
  | none => simp [Feature.addAll]
  | some p =>
    cases p with
    | background b =>
      by_cases hbackground : f.background.isSome
      · simp [hbackground, FeaturePart.child?] at h
      · by_cases hchildren : f.children.isEmpty
        · simp [Feature.addAll, Feature.add, hbackground, hchildren, FeaturePart.bar]
        · simp [hbackground, hchildren, FeaturePart.child?] at h
    | child c =>
      by_cases hbackground : f.background.isSome
      · simp [Feature.addAll, Feature.add, hbackground]
      · by_cases hchildren : f.children.isEmpty
        · simp [Feature.addAll, Feature.add, hbackground, hchildren, FeaturePart.bar]
        · simp [Feature.addAll, Feature.add, hbackground, hchildren]

theorem Leaves.step {bar : Option OrderFault} {r : Reading (Option FeaturePart)}
    {parts : List FeaturePart} {errors : List ParseError} {run : List Token}
    (h : part? source bar ts = some r)
    (hrest : Leaves source (barAfter bar r.value) r.rest parts errors run) :
    Leaves source bar ts (r.value.toList ++ parts) (r.errors ++ errors) run := by
  intro f tail hbar hstops htail
  have hpart := part?_append hstops htail h
  have hnext : backgroundFault? (f.addAll r.value.toList) = barAfter bar r.value := by
    rw [← hbar]
    exact backgroundFault?_addAll (hbar ▸ value_of_part? h)
  rw [← hbar] at hpart
  rw [body_of_part?_eq_some hpart]
  dsimp only [Reading.before]
  rw [hrest _ tail hnext (hstops.of_suffix (length_rest_lt_of_part? h).1) htail, Feature.addAll_append]
  simp [Prod.map]

/-- The parts that are read are the same in every source that shows the same text, and so are the tags
that are left. -/
theorem exists_leaves (source : List Char) (bar : Option OrderFault) (ts : List Token) :
    ∃ (parts : List FeaturePart) (errors : List ParseError) (run : List Token),
      (∀ t ∈ run, inTagRun t) ∧
      (bar ≠ none → ∀ p ∈ parts, p.child?.isSome) ∧
      ∀ v : View, v.source = source → (∀ t ∈ ts, v.Shows t) →
        Leaves v.target bar (ts.map v.token) (parts.map (FeaturePart.relocate v.place))
          (errors.map (ParseError.relocate v.place)) (run.map v.token) := by
  -- A step leaves fewer tokens, and they are a suffix, so that what is shown at them stays shown.
  induction hn : ts.length using Nat.strong_induction_on generalizing ts bar with
  | h n ih =>
    cases hpart : part? source bar ts with
    | none =>
      refine ⟨[], [], ts, fun t ht => ?_, by simp, fun v _ _ => Leaves.refl _ _ _⟩
      exact skipTags_eq_nil_iff.1 (skipTags_eq_nil_of_part? hpart) t ht
    | some r =>
      obtain ⟨hsuffix, hlength⟩ := length_rest_lt_of_part? hpart
      obtain ⟨parts, errors, run, htags, hchildren, hleaves⟩ :=
        ih r.rest.length (hn ▸ hlength) (barAfter bar r.value) r.rest rfl
      refine ⟨r.value.toList ++ parts, r.errors ++ errors, run, htags, ?_, ?_⟩
      · intro hne p hp
        rcases List.mem_append.1 hp with hp | hp
        · exact ((value_of_part? hpart).resolve_left hne) p (Option.mem_toList.1 hp)
        · refine hchildren ?_ p hp
          unfold barAfter
          cases bar with
          | none => exact absurd rfl hne
          | some fault => simp
      · rintro v rfl hshows
        have hpart' : part? v.target bar (ts.map v.token) =
            some (v.reading (Option.map (FeaturePart.relocate v.place)) r) := by
          rw [part?_map bar hshows, hpart]
          rfl
        have hbar :
            barAfter bar (r.value.map (FeaturePart.relocate v.place)) = barAfter bar r.value := by
          cases r.value with
          | none => rfl
          | some p => cases p <;> rfl
        have hrest := hleaves v rfl fun t ht => hshows t (hsuffix.subset ht)
        have hstep := Leaves.step hpart' (hbar.symm ▸ hrest)
        simp only [View.reading] at hstep
        rw [List.map_append, List.map_append]
        rwa [Option.toList_map] at hstep

end Reader

end Gherkin
