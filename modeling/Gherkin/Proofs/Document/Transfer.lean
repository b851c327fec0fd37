import Gherkin.Proofs.Document.Parts
import Gherkin.Proofs.Document.Skipping

/-!
# Whole documents in another source

Where all tokens of a source come back in another one that shows the same text at them, the document
that is read is the same and so are its faults, with the places of the other source.
-/

namespace Gherkin

theorem Feature.add_relocate (g : Location → Location) (f : Feature) (p : FeaturePart) :
    (f.relocate g).add (p.relocate g) = (f.add p).relocate g := by
  cases p with
  | background b => rfl
  | child c =>
    unfold relocate
    simp only [add, FeaturePart.relocate, List.map_append, List.map_singleton]

namespace Reader

variable {v : View} {ts : List Token}

theorem backgroundFault?_relocate (g : Location → Location) (f : Feature) :
    backgroundFault? (f.relocate g) = backgroundFault? f := by
  unfold backgroundFault? Feature.relocate
  simp only [Option.isSome_map, List.isEmpty_map]

theorem body_map (f : Feature) (h : ∀ t ∈ ts, v.Shows t) :
    body v.target (f.relocate v.place) (ts.map v.token) =
      Prod.map (Feature.relocate v.place) (List.map (ParseError.relocate v.place))
        (body v.source f ts) := by
  -- A part leaves fewer tokens, and they are a suffix, so that what is shown at them stays shown.
  induction hn : ts.length using Nat.strong_induction_on generalizing ts f with
  | h n ih =>
    have hmap : part? v.target (backgroundFault? (f.relocate v.place)) (ts.map v.token) =
        (part? v.source (backgroundFault? f) ts).map
          (v.reading (Option.map (FeaturePart.relocate v.place))) := by
      rw [backgroundFault?_relocate]
      exact part?_map (backgroundFault? f) h
    cases hpart : part? v.source (backgroundFault? f) ts with
    | none =>
      rw [hpart] at hmap
      rw [body_of_part?_eq_none hpart, body_of_part?_eq_none hmap, stray_map]
      rfl
    | some r =>
      rcases length_rest_lt_of_part? hpart with ⟨hsuffix, hlength⟩
      rw [hpart] at hmap
      have hadd : (f.relocate v.place).addAll (r.value.map (FeaturePart.relocate v.place)).toList =
          (f.addAll r.value.toList).relocate v.place := by
        cases r.value with
        | none => rfl
        | some p => exact Feature.add_relocate v.place f p
      have hrest := ih r.rest.length (hn ▸ hlength) (f.addAll r.value.toList)
        (fun t ht => h t (hsuffix.subset ht)) rfl
      rw [body_of_part?_eq_some hpart, body_of_part?_eq_some hmap]
      dsimp only [View.reading]
      rw [hadd, hrest]
      simp only [Prod.map, id, List.map_append]

/-! ## The header of the feature -/

theorem live_map (v : View) (ts : List Token) : live (ts.map v.token) = (live ts).map v.token :=
  List.takeWhile_map

theorem finish_map (v : View) (h : ts ≠ []) :
    finish v.target (ts.map v.token) = v.place (finish v.source ts) := by
  have hfind : (ts.map v.token).find? (fun t => t.kind = .eof) =
      (ts.find? fun t => t.kind = .eof).map v.token := List.find?_map
  unfold finish
  rw [hfind]
  cases ts.find? fun t => t.kind = .eof with
  | some t => rfl
  | none =>
    rw [Option.map_none]
    dsimp only
    rw [List.getLast?_map, List.getLast?_eq_some_getLast h]
    rfl

theorem headerFault_map (v : View) (loc : Location) (ts : List Token) :
    headerFault (v.place loc) (ts.map v.token) =
      (headerFault loc ts).map (ParseError.relocate v.place) := by
  unfold headerFault
  rw [skipTags_map]
  cases skipTags ts with
  | nil => rfl
  | cons t more =>
    have hkind : (v.token t).kind = t.kind := rfl
    rw [List.map_cons]
    dsimp only
    rw [hkind]
    by_cases hk : t.kind = .block .feature
    · rw [if_pos hk, if_pos hk]
      rfl
    · rw [if_neg hk, if_neg hk]
      rfl

theorem header?_map (v : View) (ts : List Token) : header? (ts.map v.token) =
    (header? ts).map fun (tags, t, more) => (tags, v.token t, more.map v.token) := by
  fun_induction header? ts with
  | case1 ts hskip =>
    rw [header?_of_skipTags_eq_nil (by rw [skipTags_map, hskip]; rfl)]
    rfl
  | case2 ts t more hskip _ hk =>
    rw [header?_of_feature (skipTags_map_cons hskip v) hk, tagRun_map]
    rfl
  | case3 ts t more hskip _ hk ih =>
    rw [header?_of_ne_feature (skipTags_map_cons hskip v) hk, ih]

end Reader

/-- Reading tokens where they come back is reading them where they are. -/
theorem Parsed.ofTokens_map {v : View} {source target : String} {ts : List Token}
    (hsource : source.toList = v.source) (htarget : target.toList = v.target) (hne : ts ≠ [])
    (h : ∀ t ∈ ts, v.Shows t) : Parsed.ofTokens target (ts.map v.token) =
      match Parsed.ofTokens source ts with
      | .ok p => .ok (p.relocate v.place)
      | .error errors => .error (errors.map (ParseError.relocate v.place)) := by
  have hlive : ∀ t ∈ Reader.live ts, v.Shows t := fun t ht => h t ((List.takeWhile_prefix _).subset ht)
  rw [Parsed.ofTokens_eq, Parsed.ofTokens_eq]
  unfold Parsed.ofLive
  dsimp only
  rw [hsource, htarget, Reader.live_map, Reader.finish_map v hne, Reader.headerFault_map,
    Reader.header?_map]
  cases hheader : Reader.header? (Reader.live ts) with
  | none => rfl
  | some found =>
    rcases found with ⟨tags, t, more⟩
    rcases Reader.eq_append_of_header? hheader with ⟨before, hcut, hk, -⟩
    have hsuffix : t :: more <:+ Reader.live ts := ⟨before, hcut.symm⟩
    have ht := hlive t (hsuffix.subset List.mem_cons_self)
    have hmore : ∀ u ∈ more, v.Shows u := fun u hu =>
      hlive u (hsuffix.subset (List.mem_cons_of_mem t hu))
    dsimp only [Option.map_some]
    rw [Reader.skipHeader_map hmore, Reader.headerDescription_map hmore,
      ht.title (by rw [hk]; rfl)]
    have hbody := Reader.body_map
      { name := Reader.titleOf v.source t
        description := Reader.headerDescription v.source more
        tags
        background := none
        children := []
        location := t.location } fun u hu => hmore u ((Reader.skipHeader_suffix v.source more).subset hu)
    simp only [Feature.relocate, Option.map_none, List.map_nil] at hbody
    rw [show (v.token t).location = v.place t.location from rfl, hbody]
    unfold Parsed.relocate
    rw [List.map_append]
    rfl

end Gherkin
