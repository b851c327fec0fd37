import Gherkin.Proofs.Printing.Entries

/-!
# Reading the blocks of entries

The readers of headers, blocks of examples, children and features, from tokens that spell the entries.  What
the tags at the front and the first keyword after them say decides which reader takes the tokens.
-/

namespace Gherkin

namespace Reader

variable {source : List Char}

/-! ## Headers -/

theorem kind_ne_tag_of_heads {e : Entry} {t : Token} {more : List Token} (he : ∀ s, e ≠ .tag s)
    (h : e.Heads source t more) : t.kind ≠ .tag := by
  cases e with
  | tag s => exact absurd rfl (he s)
  | block | step | row | docString => rw [h.1]; simp

/-- The tags at the front are those of the entries, and what follows them spells what follows those. -/
theorem tags_of_spells {tags : List String} {es : List Entry} {ts : List Token}
    (h : Spells source (tags.map .tag ++ es) ts) (hes : ∀ s, es.head? ≠ some (.tag s)) :
    (frontTags ts).map Token.text = tags ∧ skipGaps (skipTags ts) = skipTags ts ∧
      Spells source es (skipTags ts) := by
  induction tags generalizing ts with
  | nil =>
    have hts : Spells source es (skipGaps ts) := spells_skipGaps.2 h
    rw [← frontTags_skipGaps, ← skipTags_skipGaps]
    cases hskip : skipGaps ts with
    | nil =>
      rw [hskip] at hts
      exact ⟨rfl, rfl, hts⟩
    | cons t more =>
      rcases heads_of_spells h hskip with ⟨e, es', rfl, hheads, -⟩
      have htag := kind_ne_tag_of_heads (fun s he => hes s (congrArg some he)) hheads
      rcases tags_of_kind_ne (skipGaps_of_skipGaps_eq hskip) htag more with ⟨hfront, hrest⟩
      rw [hrest, hfront, ← hskip, skipGaps_idem]
      exact ⟨rfl, rfl, hts⟩
  | cons tag tags ih =>
    rcases h with ⟨t, more, hskip, ⟨hkind, htext⟩, hmore⟩
    have hmore' : Spells source (tags.map .tag ++ es) more := hmore
    rcases ih hmore' with ⟨htags, hgaps, hrest⟩
    rcases tags_of_tag hkind more with ⟨hfront, hrest'⟩
    rw [← frontTags_skipGaps, ← skipTags_skipGaps, hskip, hrest', hfront, List.map_cons, htags, htext]
    exact ⟨rfl, hgaps, hrest⟩

theorem header_of_spells {tags : List String} {b : Block} {title : String} {d : Option String}
    {es : List Entry} {ts : List Token}
    (h : Spells source (tags.map .tag ++ .block b title d :: es) ts) :
    ∃ t more, skipTags ts = t :: more ∧ (frontTags ts).map Token.text = tags ∧ t.kind = .block b ∧
      titleOf source t = title ∧ headerDescription source more = d ∧
      Spells source es (skipHeader source more) := by
  rcases tags_of_spells h (by simp) with ⟨htags, hgaps, t, more, hskip, ⟨hkind, htitle, hd⟩, hmore⟩
  exact ⟨t, more, hgaps.symm.trans hskip, htags, hkind, htitle, hd, hmore⟩

theorem tagRun_tags {tags : List String} {ts : List Token} (h : (frontTags ts).map Token.text = tags)
    (htags : tags.Nodup) : (tagRun ts).tags = tags := by
  show ((frontTags ts).map Token.text).eraseDups = tags
  rw [h, eraseDups_of_nodup htags]

theorem tagRun_location_of_nil {ts : List Token} (h : (frontTags ts).map Token.text = []) :
    (tagRun ts).location = none := by
  show (frontTags ts).head?.map Token.location = none
  rw [List.map_eq_nil_iff.1 h]
  rfl

theorem optionalTitleOf_eq {t : Token} {name : Option String} (h : titleOf source t = name.getD "")
    (hname : ∀ s ∈ name, s ≠ "") : optionalTitleOf source t = name := by
  unfold optionalTitleOf
  dsimp only
  rw [h]
  cases name with
  | none => rfl
  | some s =>
    have hs : s ≠ "" := hname s rfl
    have hempty : s.isEmpty = false := by simpa using hs
    rw [Option.getD_some, hempty]
    rfl

/-! ## Examples -/

theorem examples_of_spells {x : Examples} (hx : x.Printable) {es : List Entry} {ts : List Token}
    (h : Spells source (x.entries ++ es) ts) (hes : OpensPart es) :
    ∃ t more, skipTags ts = t :: more ∧ t.kind = .block .examples ∧
      (examples source (tagRun ts).tags t more).value.relocate .forget = x.relocate .forget ∧
      (examples source (tagRun ts).tags t more).errors = [] ∧
      Spells source es (examples source (tagRun ts).tags t more).rest := by
  unfold Examples.entries at h
  rw [List.append_assoc, List.cons_append] at h
  rcases header_of_spells h with ⟨t, more, hskip, htags, hkind, htitle, hdescription, hmore⟩
  refine ⟨t, more, hskip, hkind, ?_⟩
  have hname : optionalTitleOf source t = x.name :=
    optionalTitleOf_eq htitle fun s hs => (hx.name s hs).2
  rw [tagRun_tags htags hx.tags.1]
  -- Without a table the next entry decides: it must not be read as a row.
  cases htable : x.table with
  | some data =>
    rw [htable] at hmore
    have hspells : Spells source (data.entries ++ es) (skipHeader source more) := by simpa using hmore
    rcases table_of_spells (hx.table data htable) hspells hes with
      ⟨a, rest, hgaps, ha, hvalue, herrors, hrest⟩
    unfold examples
    dsimp only
    rw [hgaps]
    dsimp only
    rw [if_pos ha, hname, hdescription]
    refine ⟨?_, herrors, hrest⟩
    unfold Examples.relocate
    rw [htable, Option.map_some, Option.map_some, hvalue]
    rfl
  | none =>
    rw [htable] at hmore
    have hspells : Spells source es (skipHeader source more) := hmore
    have hgapped : Spells source es (skipGaps (skipHeader source more)) := spells_skipGaps.2 hspells
    unfold examples
    dsimp only
    cases hgaps : skipGaps (skipHeader source more) with
    | nil =>
      rw [hgaps] at hgapped
      dsimp only
      rw [hname, hdescription]
      refine ⟨?_, rfl, hgapped⟩
      unfold Examples.relocate
      rw [htable]
      rfl
    | cons a rest =>
      rw [hgaps] at hgapped
      dsimp only
      rw [if_neg (kind_ne_of_opensPart hspells hes hgaps).1, hname, hdescription]
      refine ⟨?_, rfl, hgapped⟩
      unfold Examples.relocate
      rw [htable]
      rfl

def OpensChild (es : List Entry) : Prop :=
  es = [] ∨ ∃ (tags : List String) (b : Block) (title : String) (d : Option String) (more : List Entry),
    es = tags.map .tag ++ .block b title d :: more ∧ b ≠ .examples

theorem opensBlock_tags (tags : List String) (b : Block) (title : String) (d : Option String)
    (es : List Entry) : OpensBlock (tags.map .tag ++ .block b title d :: es) := by
  intro e he
  cases tags with
  | nil => exact Or.inr ⟨b, title, d, (Option.some.inj he).symm⟩
  | cons tag tags => exact Or.inl ⟨tag, (Option.some.inj he).symm⟩

theorem OpensChild.opensBlock {es : List Entry} (h : OpensChild es) : OpensBlock es := by
  rcases h with rfl | ⟨tags, b, title, d, more, rfl, -⟩
  · intro e he
    simp at he
  · exact opensBlock_tags tags b title d more

theorem opensBlock_examples {xs : List Examples} {es : List Entry} (hes : OpensChild es) :
    OpensBlock (xs.flatMap Examples.entries ++ es) := by
  cases xs with
  | nil => exact hes.opensBlock
  | cons x xs =>
    rw [List.flatMap_cons, List.append_assoc, Examples.entries, List.append_assoc, List.cons_append]
    exact opensBlock_tags _ _ _ _ _

theorem exampleBlocks_of_spells {xs : List Examples} (hxs : ∀ x ∈ xs, x.Printable) {es : List Entry}
    (started : Bool) {ts : List Token} (h : Spells source (xs.flatMap Examples.entries ++ es) ts)
    (hes : OpensChild es) :
    (exampleBlocks source started ts).value.map (Examples.relocate .forget) =
        xs.map (Examples.relocate .forget) ∧
      (exampleBlocks source started ts).errors = [] ∧
      Spells source es (exampleBlocks source started ts).rest := by
  induction xs generalizing started ts with
  | nil =>
    have hts : Spells source es ts := h
    -- What follows opens no block of examples, so that the reader stops before it.
    have hstop : exampleBlocks source started ts = ⟨[], [], ts⟩ := by
      rcases hes with rfl | ⟨tags, b, title, d, more, rfl, hb⟩
      · have hnil : skipTags ts = [] := by
          rw [← skipTags_skipGaps, show skipGaps ts = [] from hts]
          rfl
        exact exampleBlocks_of_skipTags_eq_nil hnil
      · rcases header_of_spells hts with ⟨t, rest, hskip, -, hkind, -⟩
        exact exampleBlocks_of_stop hskip (by rw [hkind]; rfl) (by rw [hkind]; simpa using hb)
    rw [hstop]
    exact ⟨rfl, rfl, hts⟩
  | cons x xs ih =>
    rw [List.flatMap_cons, List.append_assoc] at h
    rcases examples_of_spells (hxs x List.mem_cons_self) h (opensBlock_examples hes).opensPart with
      ⟨t, more, hskip, hkind, hvalue, herrors, hrest⟩
    rcases ih (fun y hy => hxs y (List.mem_cons_of_mem x hy)) true hrest with
      ⟨hvalues, herrors', hrest'⟩
    rw [exampleBlocks_of_examples hskip hkind]
    dsimp only
    rw [List.map_cons, List.map_cons, hvalue, hvalues, herrors, herrors']
    exact ⟨rfl, rfl, hrest'⟩

/-! ## Children and the background -/

theorem checkOutline_congr {o x : Outline} (h : o.relocate .forget = x.relocate .forget)
    (hx : checkOutline x = []) : checkOutline o = [] := by
  have hmap : (checkOutline o).map (ParseError.relocate .forget) = [] := by
    rw [← checkOutline_relocate, h, checkOutline_relocate, hx]
    rfl
  exact List.map_eq_nil_iff.1 hmap

theorem child_of_spells {x : Child} (hx : x.Printable) {es : List Entry} {ts : List Token}
    (h : Spells source (x.entries ++ es) ts) (hes : OpensChild es) :
    ∃ t more, skipTags ts = t :: more ∧
      (t.kind = .block .scenario ∨ t.kind = .block .scenarioOutline) ∧
      (child source (tagRun ts).tags t more).value.relocate .forget = x.relocate .forget ∧
      (child source (tagRun ts).tags t more).errors = [] ∧
      Spells source es (child source (tagRun ts).tags t more).rest := by
  cases x with
  | scenario x =>
    have hx : x.Printable := hx
    have hspells : Spells source (x.tags.map .tag ++ .block .scenario x.name x.description ::
        (x.steps.flatMap Step.entries ++ es)) ts := by
      simpa [Child.entries, Scenario.entries] using h
    rcases header_of_spells hspells with ⟨t, more, hskip, htags, hkind, htitle, hdescription, hmore⟩
    rcases steps_of_spells hx.steps hmore hes.opensBlock with ⟨hsteps, hstepErrors, hrest⟩
    -- A scenario has no examples: what follows it does not spell any.
    have hblocks : Spells source (([] : List Examples).flatMap Examples.entries ++ es)
        (steps source (skipHeader source more)).rest := hrest
    rcases exampleBlocks_of_spells (by simp) false hblocks hes with
      ⟨hvalues, herrors, hrest'⟩
    have hnone : (exampleBlocks source false (steps source (skipHeader source more)).rest).value = [] :=
      List.map_eq_nil_iff.1 hvalues
    refine ⟨t, more, hskip, Or.inl hkind, ?_⟩
    rw [tagRun_tags htags hx.tags.1]
    unfold child
    dsimp only
    rw [hnone, hkind, if_neg (by simp), htitle, hdescription, hstepErrors, herrors]
    refine ⟨?_, rfl, hrest'⟩
    show Child.scenario (Scenario.relocate .forget _) = .scenario (x.relocate .forget)
    unfold Scenario.relocate
    rw [hsteps]
    rfl
  | outline x =>
    have hx : x.Printable := hx
    have hspells : Spells source (x.tags.map .tag ++ .block .scenarioOutline x.name x.description ::
        (x.steps.flatMap Step.entries ++ (x.examples.flatMap Examples.entries ++ es))) ts := by
      simpa [Child.entries, Outline.entries] using h
    rcases header_of_spells hspells with ⟨t, more, hskip, htags, hkind, htitle, hdescription, hmore⟩
    rcases steps_of_spells hx.steps hmore (opensBlock_examples hes) with ⟨hsteps, hstepErrors, hrest⟩
    rcases exampleBlocks_of_spells hx.examples false hrest hes with
      ⟨hvalues, herrors, hrest'⟩
    refine ⟨t, more, hskip, Or.inr hkind, ?_⟩
    rw [tagRun_tags htags hx.tags.1]
    unfold child
    dsimp only
    rw [hkind, if_pos (by simp), htitle, hdescription, hstepErrors, herrors]
    have hrelocate : Outline.relocate .forget ⟨x.name, x.description, x.tags,
        (steps source (skipHeader source more)).value,
        (exampleBlocks source false (steps source (skipHeader source more)).rest).value, t.location⟩ =
        x.relocate .forget := by
      unfold Outline.relocate
      rw [hsteps, hvalues]
      rfl
    exact ⟨congrArg Child.outline hrelocate, checkOutline_congr hrelocate hx.check, hrest'⟩

theorem background_of_spells {x : Background} (hx : x.Printable) {es : List Entry} {ts : List Token}
    (h : Spells source (x.entries ++ es) ts) (hes : OpensBlock es) :
    ∃ t more, skipTags ts = t :: more ∧ t.kind = .block .background ∧
      (tagRun ts).location = none ∧
      (background source t more).value.relocate .forget = x.relocate .forget ∧
      (background source t more).errors = [] ∧ Spells source es (background source t more).rest := by
  have hspells : Spells source (([] : List String).map .tag ++
      .block .background (x.name.getD "") x.description :: (x.steps.flatMap Step.entries ++ es)) ts := h
  rcases header_of_spells hspells with ⟨t, more, hskip, htags, hkind, htitle, hdescription, hmore⟩
  rcases steps_of_spells hx.steps hmore hes with ⟨hsteps, herrors, hrest⟩
  have hname : optionalTitleOf source t = x.name :=
    optionalTitleOf_eq htitle fun s hs => (hx.name s hs).2
  refine ⟨t, more, hskip, hkind, tagRun_location_of_nil htags, ?_, herrors, hrest⟩
  show Background.relocate .forget
    ⟨optionalTitleOf source t, headerDescription source more, (steps source _).value, t.location⟩ = _
  unfold Background.relocate
  rw [hsteps, hname, hdescription]
  rfl

/-! ## Features -/

theorem opensChild_children {xs : List Child} : OpensChild (xs.flatMap Child.entries) := by
  cases xs with
  | nil => exact Or.inl rfl
  | cons x xs =>
    refine Or.inr ?_
    cases x with
    | scenario x =>
      refine ⟨x.tags, .scenario, x.name, x.description,
        x.steps.flatMap Step.entries ++ xs.flatMap Child.entries, ?_, by simp⟩
      rw [List.flatMap_cons, Child.entries, Scenario.entries, List.append_assoc, List.cons_append]
    | outline x =>
      refine ⟨x.tags, .scenarioOutline, x.name, x.description, x.steps.flatMap Step.entries ++
        x.examples.flatMap Examples.entries ++ xs.flatMap Child.entries, ?_, by simp⟩
      rw [List.flatMap_cons, Child.entries, Outline.entries, List.append_assoc, List.cons_append]

theorem body_of_spells_children {xs : List Child} (hxs : ∀ x ∈ xs, x.Printable) {f : Feature}
    {ts : List Token} (h : Spells source (xs.flatMap Child.entries) ts) :
    (body source f ts).1.relocate .forget =
        { f with children := f.children ++ xs }.relocate .forget ∧
      (body source f ts).2 = [] := by
  induction xs generalizing f ts with
  | nil =>
    have hts : Spells source (([] : List String).map .tag ++ []) ts := h
    rcases tags_of_spells hts (by simp) with ⟨htags, hgaps, hrest⟩
    have hskip : skipTags ts = [] := hgaps.symm.trans hrest
    rw [body_of_skipTags_eq_nil hskip, List.append_nil]
    refine ⟨rfl, ?_⟩
    unfold TagRun.stray
    rw [tagRun_location_of_nil htags]
    rfl
  | cons x xs ih =>
    rcases child_of_spells (hxs x List.mem_cons_self) h opensChild_children with
      ⟨t, more, hskip, hkind, hvalue, herrors, hrest⟩
    rw [body_of_child hskip hkind]
    dsimp only
    have hothers := @ih (fun y hy => hxs y (List.mem_cons_of_mem x hy))
      { f with children := f.children ++ [(child source (tagRun ts).tags t more).value] } _ hrest
    rw [hothers.1, hothers.2, herrors]
    refine ⟨?_, rfl⟩
    unfold Feature.relocate
    simp [hvalue]

theorem body_of_spells {f x : Feature} (hx : x.Printable) (hbackground : f.background = none)
    (hchildren : f.children = []) {ts : List Token}
    (h : Spells source (x.background.toList.flatMap Background.entries ++
      x.children.flatMap Child.entries) ts) :
    (body source f ts).1.relocate .forget =
        { f with background := x.background, children := x.children }.relocate .forget ∧
      (body source f ts).2 = [] := by
  cases hb : x.background with
  | none =>
    rw [hb] at h
    have hread := body_of_spells_children (f := f) hx.children h
    rw [hchildren, List.nil_append] at hread
    rw [← hbackground]
    exact hread
  | some b =>
    rw [hb] at h
    have hspells : Spells source (b.entries ++ x.children.flatMap Child.entries) ts := by
      simpa using h
    rcases background_of_spells (hx.background b hb) hspells opensChild_children.opensBlock with
      ⟨t, more, hskip, hkind, hlocation, hvalue, herrors, hrest⟩
    have hfault : backgroundFault? f = none := by simp [backgroundFault?, hbackground, hchildren]
    rw [body_of_background hskip hkind]
    dsimp only
    rw [hfault, hlocation, herrors]
    have hothers := @body_of_spells_children source _ hx.children
      { f with background := some (background source t more).value } _ hrest
    simp only [Option.map_none, Option.toList_none, List.isEmpty_nil, if_true, List.nil_append]
    rw [hothers.1, hothers.2]
    refine ⟨?_, rfl⟩
    unfold Feature.relocate
    simp [hvalue, hchildren]

/-- The header of the feature starts the document, and its parts make the rest. -/
theorem feature_of_spells {x : Feature} (hx : x.Printable) {ts : List Token}
    (h : Spells source x.entries ts) (finish : Location) :
    ∃ t more, header? ts = some (x.tags, t, more) ∧ headerFault finish ts = [] ∧
      ∃ f, f.relocate .forget = x.relocate .forget ∧
        body source ⟨titleOf source t, headerDescription source more, x.tags, none, [], t.location⟩
          (skipHeader source more) = (f, []) := by
  rcases header_of_spells h with ⟨t, more, hskip, htags, hkind, htitle, hdescription, hmore⟩
  refine ⟨t, more, ?_, ?_, ?_⟩
  · rw [header?_of_feature hskip hkind, tagRun_tags htags hx.tags.1]
  · unfold headerFault
    rw [hskip]
    exact if_pos hkind
  · have hread := @body_of_spells source
      ⟨titleOf source t, headerDescription source more, x.tags, none, [], t.location⟩ x hx rfl rfl _ hmore
    refine ⟨_, hread.1.trans ?_, Prod.ext rfl hread.2⟩
    rw [htitle, hdescription]
    rfl

end Reader

end Gherkin
