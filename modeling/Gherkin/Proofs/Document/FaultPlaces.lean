import Gherkin.Proofs.Document.Equations

/-!
# Where faults are recorded

Every fault that a reader records is located at a token that it went over.  Only a document without a
feature has a fault elsewhere, where it ends.
-/

namespace Gherkin.Reader

def LocatedIn (ts : List Token) (errors : List ParseError) : Prop :=
  ∀ e ∈ errors, ∃ t ∈ ts, isGap t = false ∧ e.location = t.location

section
variable {ts us : List Token} {es fs : List ParseError}

theorem LocatedIn.nil : LocatedIn ts [] := by simp [LocatedIn]

theorem LocatedIn.mono (h : LocatedIn ts es) (hsub : ts ⊆ us) : LocatedIn us es := by
  intro e he
  obtain ⟨t, ht, hlocation⟩ := h e he
  exact ⟨t, hsub ht, hlocation⟩

theorem LocatedIn.append (h : LocatedIn ts es) (h' : LocatedIn ts fs) : LocatedIn ts (es ++ fs) := by
  intro e he
  rcases List.mem_append.1 he with he | he
  · exact h e he
  · exact h' e he

theorem LocatedIn.cons {e : ParseError} {t : Token} (ht : t ∈ ts) (hgap : isGap t = false)
    (he : e.location = t.location) (h : LocatedIn ts es) : LocatedIn ts (e :: es) := by
  intro f hf
  rcases List.mem_cons.1 hf with rfl | hf
  · exact ⟨t, ht, hgap, he⟩
  · exact h f hf

end

variable {source : List Char} {ts : List Token}

/-! ## Steps -/

theorem locatedIn_raggedRows (width : Nat) {ts : List Token} (h : ∀ t ∈ ts, t.kind = .tableRow) :
    LocatedIn ts (raggedRows width ts) := by
  intro e he
  obtain ⟨t, ht, hrow⟩ := List.mem_filterMap.1 he
  refine ⟨t, ht, by simp [isGap, h t ht], ?_⟩
  unfold raggedRow? at hrow
  dsimp only at hrow
  split at hrow
  · simp at hrow
  · rw [← Option.some.inj hrow]
    rfl

theorem locatedIn_table (t : Token) (ts : List Token) : LocatedIn (t :: ts) (table t ts).errors :=
  (locatedIn_raggedRows _ fun u hu => (mem_rows u hu).2).mono fun u hu => (mem_rows u hu).1

theorem locatedIn_argument (source : List Char) (ts : List Token) :
    LocatedIn ts (argument source ts).errors := by
  fun_cases argument source ts with
  | case1 => exact LocatedIn.nil
  | case2 t ts => exact locatedIn_table t ts
  | case3 => exact LocatedIn.nil
  | case4 => exact LocatedIn.nil

theorem locatedIn_step {k : StepKeyword} {t : Token} (ht : t.kind = .step k) (ts : List Token) :
    LocatedIn (t :: ts) (step source k t ts).errors := by
  have hskip := ((skipGaps_suffix _).trans (skipLine_suffix ts)).trans (List.suffix_cons t ts)
  refine LocatedIn.append ?_ ((locatedIn_argument source _).mono hskip.subset)
  by_cases hblank : (titleOf source t).isEmpty
  · rw [if_pos hblank]
    exact LocatedIn.cons List.mem_cons_self (by simp [isGap, ht]) rfl LocatedIn.nil
  · rw [if_neg hblank]
    exact LocatedIn.nil

theorem locatedIn_steps (source : List Char) (ts : List Token) :
    LocatedIn ts (steps source ts).errors := by
  fun_induction steps source ts with
  | case1 => exact LocatedIn.nil
  | case2 ts t more hgaps k hk first _ others ih =>
    have hmore : t :: more <:+ ts := hgaps ▸ skipGaps_suffix ts
    have hrest : first.rest <:+ ts := suffix_of_skipGaps hgaps (step_suffix source k t more)
    exact ((locatedIn_step hk more).mono hmore.subset).append (ih.mono hrest.subset)
  | case3 ts t more hgaps _ fault hfault =>
    have hmore : t :: more <:+ ts := hgaps ▸ skipGaps_suffix ts
    have hgap : isGap t = false := by
      cases hkind : t.kind <;> simp [hkind, nonStepFault?] at hfault <;> simp [isGap, hkind]
    exact LocatedIn.cons (hmore.subset List.mem_cons_self) hgap rfl LocatedIn.nil
  | case4 => exact LocatedIn.nil

/-! ## Blocks -/

theorem locatedIn_examples (tags : List String) (t : Token) (ts : List Token) :
    LocatedIn ts (examples source tags t ts).errors := by
  have hskip := (skipGaps_suffix (skipHeader source ts)).trans (skipHeader_suffix source ts)
  unfold examples
  dsimp only
  split
  · rename_i a more h
    rw [h] at hskip
    split
    · exact (locatedIn_table a more).mono hskip.subset
    · exact LocatedIn.nil
  · exact LocatedIn.nil

/-- A block of examples is where its header is. -/
theorem location_examples (tags : List String) (t : Token) (ts : List Token) :
    (examples source tags t ts).value.location = t.location := by
  unfold examples
  dsimp only
  split
  · split
    · rfl
    · rfl
  · rfl

theorem locatedIn_exampleBlocks (source : List Char) (started : Bool) (ts : List Token) :
    LocatedIn ts (exampleBlocks source started ts).errors ∧
      ∀ x ∈ (exampleBlocks source started ts).value,
        ∃ t ∈ ts, isGap t = false ∧ x.location = t.location := by
  fun_induction exampleBlocks source started ts with
  | case1 => exact ⟨LocatedIn.nil, by simp⟩
  | case2 _ ts t more hskip _ hk first _ others ih =>
    have hmore : t :: more <:+ ts := hskip ▸ skipTags_suffix ts
    have hrest : first.rest <:+ ts := suffix_of_skipTags hskip (examples_suffix source _ t more)
    refine ⟨?_, fun x hx => ?_⟩
    · exact ((locatedIn_examples _ t more).mono fun u hu =>
        hmore.subset (List.mem_cons_of_mem t hu)).append (ih.1.mono hrest.subset)
    · rcases List.mem_cons.1 hx with rfl | hx
      · exact ⟨t, hmore.subset List.mem_cons_self, by simp [isGap, hk], location_examples _ t more⟩
      · obtain ⟨u, hu, hlocation⟩ := ih.2 x hx
        exact ⟨u, hrest.subset hu, hlocation⟩
  | case3 ts t more hskip _ k hk _ others ih =>
    have hmore : t :: more <:+ ts := hskip ▸ skipTags_suffix ts
    have hrest : synchronize more <:+ ts := suffix_of_skipTags hskip (synchronize_suffix more)
    refine ⟨LocatedIn.cons (hmore.subset List.mem_cons_self) (by simp [isGap, hk]) rfl
      (ih.1.mono hrest.subset), fun x hx => ?_⟩
    obtain ⟨u, hu, hlocation⟩ := ih.2 x hx
    exact ⟨u, hrest.subset hu, hlocation⟩
  | case4 => exact ⟨LocatedIn.nil, by simp⟩
  | case5 => exact ⟨LocatedIn.nil, by simp⟩

/-- What is wrong with an outline is located at its header or at those of its examples. -/
theorem locatedIn_checkOutline {o : Outline} {t : Token} (ht : t ∈ ts) (hgap : isGap t = false)
    (ho : o.location = t.location)
    (hexamples : ∀ x ∈ o.examples, ∃ t ∈ ts, isGap t = false ∧ x.location = t.location) :
    LocatedIn ts (checkOutline o) := by
  unfold checkOutline
  split
  · exact LocatedIn.cons ht hgap ho LocatedIn.nil
  · intro e he
    obtain ⟨x, hx, hfault⟩ := List.mem_filterMap.1 he
    have hlocation : e.location = x.location := by
      dsimp only at hfault
      split at hfault
      · rw [← Option.some.inj hfault]
        rfl
      · split at hfault
        · simp at hfault
        · rw [← Option.some.inj hfault]
          rfl
    obtain ⟨u, hu, hgap', hheader⟩ := hexamples x hx
    exact ⟨u, hu, hgap', hlocation.trans hheader⟩

theorem locatedIn_child (tags : List String) {t : Token} (ht : isGap t = false) (ts : List Token) :
    LocatedIn (t :: ts) (child source tags t ts).errors := by
  have hskip := (skipHeader_suffix source ts).trans (List.suffix_cons t ts)
  have hrest := (steps_suffix source (skipHeader source ts)).trans hskip
  have hsteps := (locatedIn_steps source (skipHeader source ts)).mono hskip.subset
  obtain ⟨hblocks, hexamples⟩ :=
    locatedIn_exampleBlocks source false (steps source (skipHeader source ts)).rest
  have hboth := hsteps.append (hblocks.mono hrest.subset)
  unfold child
  dsimp only
  split
  · refine hboth.append (locatedIn_checkOutline List.mem_cons_self ht rfl fun x hx => ?_)
    obtain ⟨u, hu, hlocated⟩ := hexamples x hx
    exact ⟨u, hrest.subset hu, hlocated⟩
  · exact hboth

theorem locatedIn_background (t : Token) (ts : List Token) :
    LocatedIn ts (background source t ts).errors :=
  (locatedIn_steps source _).mono (skipHeader_suffix source ts).subset

/-! ## Features -/

theorem exists_of_tagRun_location {loc : Location} (h : (tagRun ts).location = some loc) :
    ∃ t ∈ ts, t.kind = .tag ∧ loc = t.location := by
  obtain ⟨t, ht, rfl⟩ := Option.map_eq_some_iff.1 h
  obtain ⟨hmem, hkind⟩ := List.mem_filter.1 (List.mem_of_mem_head? ht)
  exact ⟨t, (List.takeWhile_prefix _).subset hmem, by simpa using hkind, rfl⟩

theorem locatedIn_ofTagRun (f : Location → ParseError) (hf : ∀ loc, (f loc).location = loc) :
    LocatedIn ts ((tagRun ts).location.map f).toList := by
  cases h : (tagRun ts).location with
  | none => exact LocatedIn.nil
  | some loc =>
    obtain ⟨t, ht, hkind, hlocation⟩ := exists_of_tagRun_location h
    exact LocatedIn.cons ht (by simp [isGap, hkind]) ((hf loc).trans hlocation) LocatedIn.nil

theorem locatedIn_body (source : List Char) (f : Feature) (ts : List Token) :
    LocatedIn ts (body source f ts).2 := by
  -- Every fault is at a token of what is read there, and that is a suffix of the whole.
  fun_induction body source f ts with
  | case1 => exact locatedIn_ofTagRun _ fun _ => rfl
  | case2 f ts run t more hskip _ _ _ read _ tagged misplaced f' g errors hbody ih =>
    have hmore : t :: more <:+ ts := hskip ▸ skipTags_suffix ts
    have hrest : read.rest <:+ ts := suffix_of_skipTags hskip (background_suffix source t more)
    have hmisplaced : LocatedIn ts misplaced := by
      unfold misplaced
      cases backgroundFault? f with
      | none => exact LocatedIn.nil
      | some fault =>
        exact LocatedIn.cons (hmore.subset List.mem_cons_self) (isGap_of_skipTags hskip) rfl
          LocatedIn.nil
    have hread : LocatedIn ts read.errors := (locatedIn_background t more).mono fun u hu =>
      hmore.subset (List.mem_cons_of_mem t hu)
    rw [hbody] at ih
    exact (((locatedIn_ofTagRun _ fun _ => rfl).append hmisplaced).append hread).append
      (ih.mono hrest.subset)
  | case3 f ts run t more hskip _ _ _ read _ g errors hbody ih
  | case4 f ts run t more hskip _ _ _ read _ g errors hbody ih =>
    have hmore : t :: more <:+ ts := hskip ▸ skipTags_suffix ts
    have hrest : read.rest <:+ ts := suffix_of_skipTags hskip (child_suffix source run.tags t more)
    rw [hbody] at ih
    exact ((locatedIn_child run.tags (isGap_of_skipTags hskip) more).mono hmore.subset).append
      (ih.mono hrest.subset)
  | case5 f ts t more hskip _ _ _ read _ g errors hbody ih =>
    have hmore : t :: more <:+ ts := hskip ▸ skipTags_suffix ts
    have hrest : read.rest <:+ ts := suffix_of_skipTags hskip (examples_suffix source [] t more)
    have hread : LocatedIn ts read.errors := (locatedIn_examples [] t more).mono fun u hu =>
      hmore.subset (List.mem_cons_of_mem t hu)
    rw [hbody] at ih
    exact LocatedIn.cons (hmore.subset List.mem_cons_self) (isGap_of_skipTags hskip) rfl
      (hread.append (ih.mono hrest.subset))
  | case6 f ts run t more hskip _ _ g errors hbody _ _ _ _ fault ih =>
    have hmore : t :: more <:+ ts := hskip ▸ skipTags_suffix ts
    have hrest : synchronize more <:+ ts := suffix_of_skipTags hskip (synchronize_suffix more)
    rw [hbody] at ih
    exact (locatedIn_ofTagRun _ fun _ => rfl).append
      (LocatedIn.cons (hmore.subset List.mem_cons_self) (isGap_of_skipTags hskip) rfl
        (ih.mono hrest.subset))

end Gherkin.Reader
