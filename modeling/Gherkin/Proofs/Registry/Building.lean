import Gherkin.Proofs.Pattern.Suggestion
import Gherkin.Registry

/-!
# Registries as they are built

A registry starts without definitions, and from then on definitions are added and texts are looked up.  So
each of its patterns is the one that its source compiles to, and a source that no definition has can be
added if it compiles.  The suggestion for a text that no definition matches is such a source.
-/

namespace Gherkin

variable {World : Type} {refusal? : Refusal}

namespace Registry

/-- The registries that adding definitions and looking texts up lead to. -/
inductive Built (refusal? : Refusal) : Registry World → Prop
  | empty : Built refusal? {}
  | register {r r' : Registry World} {x : Registration World} (h : Built refusal? r)
      (hr : r.register refusal? x = .ok r') : Built refusal? r'
  | find {r : Registry World} (h : Built refusal? r) (text : String) : Built refusal? (r.find text).2

/-! ## Adding a definition -/

/-- What is added has a pattern that can be used, which the index did not have before. -/
theorem eq_push_of_register {r r' : Registry World} {x : Registration World}
    (h : r.register refusal? x = .ok r') : ∃ p, r.index.lookup x.source = none ∧
      Pattern.parse refusal? x.source = .ok p ∧ r' = r.push (x.definition p) := by
  unfold register define at h
  cases hlookup : r.index.lookup x.source with
  | some i => simp [hlookup, Except.map] at h
  | none =>
    cases hparse : Pattern.parse refusal? x.source with
    | error cause => simp [hlookup, hparse, Except.map] at h
    | ok p =>
      simp only [hlookup, hparse, Except.map, Except.ok.injEq] at h
      exact ⟨p, rfl, rfl, h.symm⟩

theorem define_eq_ok {r : Registry World} {x : Registration World} {p : Pattern}
    (hnew : r.index.lookup x.source = none) (hparse : Pattern.parse refusal? x.source = .ok p) :
    r.define refusal? x = .ok (x.definition p) := by
  unfold define
  rw [hnew, hparse]

theorem register_eq_ok {r : Registry World} {x : Registration World} {p : Pattern}
    (hnew : r.index.lookup x.source = none) (hparse : Pattern.parse refusal? x.source = .ok p) :
    r.register refusal? x = .ok (r.push (x.definition p)) := by
  unfold register
  rw [define_eq_ok hnew hparse]
  rfl

/-! ## Definitions keep their patterns -/

theorem pattern_of_mem_markUsed {r : Registry World} {index : Nat} {d : Definition World}
    (h : d ∈ (r.markUsed index).definitions) : ∃ d' ∈ r.definitions, d.pattern = d'.pattern := by
  obtain ⟨i, hi, rfl⟩ := List.getElem_of_mem h
  have hlength : i < r.definitions.length := by
    simpa [markUsed] using hi
  refine ⟨r.definitions[i], List.getElem_mem hlength, ?_⟩
  simp only [markUsed, List.getElem_modify]
  split <;> rfl

theorem Built.parse_eq {r : Registry World} (h : r.Built refusal?) :
    ∀ d ∈ r.definitions, Pattern.parse refusal? d.pattern.source = .ok d.pattern := by
  induction h with
  | empty => simp
  | @register r r' x _ hr ih =>
    obtain ⟨p, -, hparse, rfl⟩ := eq_push_of_register hr
    intro d hd
    rcases List.mem_append.1 hd with hd | hd
    · exact ih d hd
    · rw [List.mem_singleton.1 hd]
      show Pattern.parse refusal? p.source = .ok p
      rw [Pattern.source_of_parse hparse, hparse]
  | @find r _ text ih =>
    intro d hd
    unfold Registry.find at hd
    cases hresolve : r.resolve text with
    | none =>
      rw [hresolve] at hd
      exact ih d hd
    | some c =>
      rw [hresolve] at hd
      obtain ⟨d', hd', hpattern⟩ := pattern_of_mem_markUsed hd
      rw [hpattern]
      exact ih d' hd'

/-! ## The index -/

theorem getElem?_concat_eq_some_iff {α : Type} {xs : List α} {x y : α} {i : Nat} :
    (xs ++ [x])[i]? = some y ↔ xs[i]? = some y ∨ i = xs.length ∧ x = y := by
  rcases Nat.lt_or_ge i xs.length with hlt | hge
  · rw [List.getElem?_append_left hlt]
    exact (or_iff_left fun hlast => Nat.ne_of_lt hlt hlast.1).symm
  · rw [List.getElem?_append_right hge, List.getElem?_eq_none hge, List.getElem?_singleton]
    by_cases hlast : i = xs.length
    · simp [hlast]
    · rw [if_neg (by omega)]
      simp [hlast]

/-- The index has the position of every pattern, and nothing else. -/
def Indexed (r : Registry World) : Prop :=
  ∀ source i, r.index.lookup source = some i ↔ r.patterns[i]? = some source

theorem Indexed.lookup_eq_none_iff {r : Registry World} (h : r.Indexed) {source : String} :
    r.index.lookup source = none ↔ source ∉ r.patterns := by
  rw [Option.eq_none_iff_forall_ne_some, List.mem_iff_getElem?, not_exists]
  simp only [Ne, h source]

theorem patterns_push (r : Registry World) (d : Definition World) :
    (r.push d).patterns = r.patterns ++ [d.pattern.source] := by
  unfold patterns push
  rw [List.map_append, List.map_singleton]

theorem Indexed.push {r : Registry World} (h : r.Indexed) {d : Definition World}
    (hnew : r.index.lookup d.pattern.source = none) : (r.push d).Indexed := by
  intro source i
  have hlength : r.patterns.length = r.definitions.length := List.length_map _
  have hnotin := h.lookup_eq_none_iff.1 hnew
  rw [patterns_push, getElem?_concat_eq_some_iff, hlength]
  show List.lookup source ((d.pattern.source, r.definitions.length) :: r.index) = some i ↔ _
  rw [List.lookup_cons]
  by_cases hsame : source = d.pattern.source
  · -- The new pattern is at the end, and nowhere before it.
    subst hsame
    have hnowhere : ¬ r.patterns[i]? = some d.pattern.source := fun hget =>
      hnotin (List.mem_of_getElem? hget)
    simp [hnowhere, eq_comm]
  · rw [show (source == d.pattern.source) = false from beq_false_of_ne hsame]
    show r.index.lookup source = some i ↔ _
    rw [h]
    exact (or_iff_left fun hlast => hsame hlast.2.symm).symm

theorem patterns_markUsed (r : Registry World) (i : Nat) : (r.markUsed i).patterns = r.patterns := by
  apply List.ext_getElem?
  intro j
  unfold patterns markUsed
  rw [List.getElem?_map, List.getElem?_map, List.getElem?_modify]
  cases r.definitions[j]? with
  | none => rfl
  | some d => by_cases hij : i = j <;> simp [hij]

theorem Indexed.markUsed {r : Registry World} (h : r.Indexed) (i : Nat) : (r.markUsed i).Indexed := by
  intro source j
  rw [patterns_markUsed]
  exact h source j

theorem Built.indexed {r : Registry World} (h : r.Built refusal?) : r.Indexed := by
  induction h with
  | empty => simp [Indexed, patterns]
  | @register r r' x _ hr ih =>
    obtain ⟨p, hnew, hparse, rfl⟩ := eq_push_of_register hr
    apply ih.push
    show r.index.lookup p.source = none
    rwa [Pattern.source_of_parse hparse]
  | @find r _ text ih =>
    unfold Registry.find
    cases r.resolve text with
    | none => exact ih
    | some c => exact ih.markUsed c.index

/-! ## Looking up -/

theorem contest_eq_none_iff {text : String} {best : Option (Contest World)} {index : Nat}
    {ds : List (Definition World)} : contest text best index ds = none ↔
      best = none ∧ ∀ d ∈ ds, d.pattern.captures? text = none := by
  induction ds generalizing best index with
  | nil => simp [contest]
  | cons d ds ih =>
    rw [contest]
    cases hcaptures : d.pattern.captures? text with
    | none => simp [hcaptures, ih]
    | some captures => simp [hcaptures, ih]

/-- A look-up finds nothing exactly where no definition matches. -/
theorem find_eq_none_iff {r : Registry World} {text : String} :
    (r.find text).1 = .ok none ↔ ∀ d ∈ r.definitions, d.pattern.captures? text = none := by
  have hresolve : r.resolve text = none ↔ ∀ d ∈ r.definitions, d.pattern.captures? text = none := by
    unfold resolve
    rw [contest_eq_none_iff]
    exact and_iff_right rfl
  rw [← hresolve]
  unfold find
  cases r.resolve text with
  | none => simp
  | some c =>
    cases hvalues : Slot.values 0 (c.winner.pattern.slots.zip c.captures) <;>
      simp [hvalues, Except.map]

theorem accepts_push_of_captures {r : Registry World} {d : Definition World} {text : String}
    {captures : List String} (h : d.pattern.captures? text = some captures) :
    (r.push d).accepts text := by
  unfold accepts push
  rw [List.any_append, List.any_cons, Pattern.accepts, h]
  simp

end Registry

/-! ## The suggestion for an undefined step -/

/-- The suggestion for a text compiles, to one slot for each value that is found in the text.  Unless its regular
expression is refused, its captures on the text are the values; and where no definition of a registry matches
the text, it can be added to the registry, which then has a match. -/
theorem suggest_defines (text : String) :
    ∃ compiled found, Pattern.compile (suggest text) = .ok compiled ∧
      (∀ other, Suggestion.Finds text.toList other ↔ other = found) ∧
      compiled.slots = found.map Prod.fst ∧
      ∀ refusal? : Refusal, refusal? compiled.regex = none →
        ∃ p, Pattern.parse refusal? (suggest text) = .ok p ∧ p.slots = found.map Prod.fst ∧
          p.captures? text = some (found.map fun value => String.ofList value.2) ∧
          ∀ {World : Type} (r : Registry World), r.Built refusal? → (r.find text).1 = .ok none →
            ∀ keyword handler caller, ∃ r',
              r.register refusal? ⟨keyword, suggest text, handler, caller⟩ = .ok r' ∧ r'.accepts text := by
  obtain ⟨found, hfound, hslots, left, hways⟩ := Suggestion.exists_finds text.toList text.toList.length
  refine ⟨_, found, Suggestion.compile_suggest text,
    fun other => ⟨Suggestion.finds_unique hfound, fun h => h ▸ hfound⟩, hslots, fun refusal? hbuilt => ?_⟩
  have hparse := Pattern.parse_of_parts (Suggestion.read_suggest text) (Suggestion.compile_suggest text) hbuilt
  have hmatch : (Pattern.ofParts (suggest text) (Suggestion.parts text.toList)).captures? text =
      some (found.map fun value => String.ofList value.2) := by
    show ((Part.expression (Suggestion.parts text.toList)).captures? text.toList).map _ = _
    rw [Part.captures?_expression, hways, Option.map_some, Option.map_some, List.map_map]
    rfl
  refine ⟨_, hparse, hslots, hmatch, fun r hregistry hnone keyword handler caller => ?_⟩
  -- A definition with this source would have the suggested pattern and so match the text.
  have hnew : suggest text ∉ r.patterns := by
    intro hmem
    obtain ⟨d, hd, hsource⟩ := List.mem_map.1 hmem
    have hsame := hregistry.parse_eq d hd
    rw [hsource, hparse] at hsame
    have hnot := Registry.find_eq_none_iff.1 hnone d hd
    rw [← Except.ok.inj hsame, hmatch] at hnot
    simp at hnot
  have hlookup : r.index.lookup (suggest text) = none := hregistry.indexed.lookup_eq_none_iff.2 hnew
  exact ⟨_, Registry.register_eq_ok hlookup hparse, Registry.accepts_push_of_captures hmatch⟩

/-- Numbers next to each other, a quote that nothing closes, a brace and a backslash, in a registry with a
definition that matches only the start of the text. -/
theorem suggest_defines_of_adjacent_numbers :
    suggest "a\x7b-1.5-2.x \"\u0663\" \"7\\" =
        "a\\\x7b\x7bfloat\x7d\x7bint\x7d.x \x7bstring\x7d \"\x7bint\x7d\\\\" ∧
      ∃ r : Registry Unit, r.Built (fun _ => none) ∧ r.definitions.length = 1 ∧
        (r.find "a\x7b-1.5-2.x \"\u0663\" \"7\\").1 = .ok none ∧
        ∃ r', r.register (fun _ => none) ⟨none, suggest "a\x7b-1.5-2.x \"\u0663\" \"7\\",
            fun _ s => (.ok (), s), ⟨"steps", 7⟩⟩ = .ok r' ∧
          r'.accepts "a\x7b-1.5-2.x \"\u0663\" \"7\\" := by
  have hsource : suggest "a\x7b-1.5-2.x \"\u0663\" \"7\\" =
      "a\\\x7b\x7bfloat\x7d\x7bint\x7d.x \x7bstring\x7d \"\x7bint\x7d\\\\" := by cbv
  let handler : Handler Unit := fun _ s => (.ok (), s)
  let x : Registration Unit := ⟨some .given, "a\\\x7b\x7bfloat\x7d", handler, ⟨"steps", 3⟩⟩
  let p : Pattern := .ofParts "a\\\x7b\x7bfloat\x7d" [.literal 'a', .literal '{', .slot .float]
  have hparse : Pattern.parse (fun _ => none) x.source = .ok p :=
    Pattern.parse_of_parts (by cbv) (Pattern.compile_eq_ok_iff.2 ⟨_, by cbv, by cbv, rfl⟩) rfl
  let r : Registry Unit := Registry.push {} (x.definition p)
  have hbuilt : r.Built (fun _ => none) := .register .empty (Registry.register_eq_ok rfl hparse)
  have hnone : (r.find "a\x7b-1.5-2.x \"\u0663\" \"7\\").1 = .ok none := by
    apply Registry.find_eq_none_iff.2
    intro d hd
    rw [List.mem_singleton.1 hd]
    cbv
  obtain ⟨_, _, -, -, -, hdefines⟩ := suggest_defines "a\x7b-1.5-2.x \"\u0663\" \"7\\"
  obtain ⟨_, -, -, -, hregisters⟩ := hdefines (fun _ => none) rfl
  exact ⟨hsource, r, hbuilt, rfl, hnone, hregisters r hbuilt hnone none handler ⟨"steps", 7⟩⟩

end Gherkin
