import Gherkin.Proofs.Pattern.Matching

/-!
# What a specificity measures

The score of a pattern is taken from its source alone.  In every text that the pattern matches, it counts
the captures and those characters that are not captured, but for the quotes around strings.
-/

namespace Gherkin

/-! ## Slots -/

/-- A string stands in its quotes, and every other capture as it is. -/
theorem Slot.length_written (s : Slot) (cs : List Char) :
    (s.written cs).length = cs.length + 2 * [s].count .string := by
  cases s with
  | string =>
    show ('"' :: (cs ++ ['"'])).length = _
    rw [List.length_cons, List.length_append]
    rfl
  | int | float | word | any | custom => rfl

theorem Slot.length_filter_isTyped (ss : List Slot) : (ss.filter isTyped).length =
    ss.count .int + ss.count .float + ss.count .string + ss.count .word := by
  induction ss with
  | nil => rfl
  | cons s ss ih =>
    simp only [List.filter_cons, List.count_cons]
    cases s <;> simp [isTyped] <;> omega

/-! ## Scores and cuts

The score is folded over the parts of a pattern, and the regular expression over the same parts once more.  A
cut says what the expression matches. -/

namespace Specificity

theorem slots_foldl (parts : List Part) (score : Specificity) :
    (parts.foldl count score).slots = score.slots + (parts.filterMap Part.toSlot?).length := by
  induction parts generalizing score with
  | nil => rfl
  | cons part parts ih =>
    rw [List.foldl_cons, ih]
    cases part with
    | slot s =>
      show score.slots + 1 + _ = score.slots + (_ + 1)
      omega
    | literal | strayOpening | strayClosing => rfl

theorem typed_foldl (parts : List Part) (score : Specificity) : (parts.foldl count score).typed =
    score.typed + ((parts.filterMap Part.toSlot?).filter Slot.isTyped).length := by
  induction parts generalizing score with
  | nil => rfl
  | cons part parts ih =>
    rw [List.foldl_cons, ih]
    cases part with
    | slot s =>
      have hslots : (Part.slot s :: parts).filterMap Part.toSlot? = s :: parts.filterMap Part.toSlot? := rfl
      rw [hslots, List.filter_cons]
      cases htyped : s.isTyped with
      | true =>
        simp only [count, htyped, if_true, List.length_cons]
        omega
      | false => simp [count, htyped]
    | literal | strayOpening | strayClosing => rfl

/-- The characters of a text that is cut are the literal ones, the captured ones and the quotes. -/
theorem length_of_cuts {parts : List Part} {captures : List (List Char)} {cs : List Char}
    (h : Piece.Cuts (parts.map Part.piece) captures cs) (score : Specificity) :
    score.literals + cs.length = (parts.foldl count score).literals + (captures.map List.length).sum +
      2 * (parts.filterMap Part.toSlot?).count .string := by
  induction parts generalizing captures cs score with
  | nil =>
    obtain ⟨rfl, rfl⟩ := Piece.cuts_nil_iff.1 h
    rfl
  | cons part parts ih =>
    cases part with
    | slot s =>
      obtain ⟨capture, more, rest, rfl, -, rfl, hrest⟩ := Piece.cuts_slot_iff.1 h
      have hslots : (Part.slot s :: parts).filterMap Part.toSlot? = [s] ++ parts.filterMap Part.toSlot? := rfl
      have hmore := ih hrest (score.count (.slot s))
      have hliterals : (score.count (.slot s)).literals = score.literals := rfl
      rw [List.foldl_cons, List.length_append, s.length_written, hslots, List.count_append, List.map_cons,
        List.sum_cons]
      omega
    | literal | strayOpening | strayClosing =>
      obtain ⟨rest, rfl, hrest⟩ := Piece.cuts_char_iff.1 h
      have hmore := ih hrest { score with literals := score.literals + 1 }
      rw [List.length_cons]
      show score.literals + (rest.length + 1) = (parts.foldl count { score with literals := _ }).literals + _ +
        2 * (parts.filterMap Part.toSlot?).count .string
      dsimp only at hmore
      omega

end Specificity

namespace Pattern

variable {refusal? : Refusal}

/-- The score of a source measures every match of its pattern: it has the number of captures, and the text has
its literal characters, those of the captures and two quotes for each string. -/
theorem specificity_measures_matches (source : String) (p : Pattern) (hparse : parse refusal? source = .ok p)
    (text : String) (captures : List String) (hmatch : p.captures? text = some captures) :
    ∃ score, Specificity.ofSource source = .ok score ∧ p.specificity = score ∧
      captures.length = score.slots ∧
      score.typed = p.slots.count .int + p.slots.count .float + p.slots.count .string +
        p.slots.count .word ∧
      text.length = score.literals + (captures.map String.length).sum + 2 * p.slots.count .string := by
  obtain ⟨parts, hread, -, -, rfl⟩ := parse_eq_ok_iff.1 hparse
  have hcuts : Piece.Cuts (parts.map Part.piece) (captures.map String.toList) text.toList := by
    have hgreatest := Part.captures?_greatest parts text.toList
    obtain ⟨found, hfound, rfl⟩ := Option.map_eq_some_iff.1 hmatch
    rw [show (Part.expression parts).captures? text.toList = some found from hfound] at hgreatest
    simpa using hgreatest.1
  have hslots : (ofParts source parts).slots = parts.filterMap Part.toSlot? := rfl
  refine ⟨parts.foldl Specificity.count {}, by rw [Specificity.ofSource, hread]; rfl, rfl, ?_⟩
  rw [hslots]
  refine ⟨?_, ?_, ?_⟩
  · have hlength := (forall₂_of_captures? hmatch).length_eq
    rw [Specificity.slots_foldl, ← hlength, hslots]
    exact (Nat.zero_add _).symm
  · rw [Specificity.typed_foldl, ← Slot.length_filter_isTyped]
    exact Nat.zero_add _
  · have hlength := Specificity.length_of_cuts hcuts {}
    rw [String.length_toList, List.map_map, show List.length ∘ String.toList = String.length from
      funext fun _ => String.length_toList] at hlength
    rw [← hlength]
    exact (Nat.zero_add _).symm

set_option maxRecDepth 4000 in
/-- An escaped brace, doubled and stray braces, and a string of which one character takes two bytes. -/
theorem specificity_measures_matches_of_braces : ∃ p score,
    parse (fun _ => none) "\\\x7bx\x7d\x7d \x7b\x7b \x7b y \x7d \x7bstring\x7d\x7bint\x7d\x7bn\x7d" = .ok p ∧
      p.captures? "\x7bx\x7d \x7b \x7b y \x7d \"\u00e9 b\"-12z" = some ["\u00e9 b", "-12", "z"] ∧
      Specificity.ofSource "\\\x7bx\x7d\x7d \x7b\x7b \x7b y \x7d \x7bstring\x7d\x7bint\x7d\x7bn\x7d" =
        .ok score ∧ p.slots = [.string, .int, .custom "n"] ∧ score.typed = 2 ∧
      "\x7bx\x7d \x7b \x7b y \x7d \"\u00e9 b\"-12z".length = score.literals + (3 + 3 + 1) + 2 * 1 := by
  have hcaptures : (parse (fun _ => none)
      "\\\x7bx\x7d\x7d \x7b\x7b \x7b y \x7d \x7bstring\x7d\x7bint\x7d\x7bn\x7d").toOption.bind (fun p =>
        (p.captures? "\x7bx\x7d \x7b \x7b y \x7d \"\u00e9 b\"-12z").map fun captures => (captures, p.slots)) =
      some (["\u00e9 b", "-12", "z"], [.string, .int, .custom "n"]) := by cbv
  obtain ⟨p, hp, hfound⟩ := Option.bind_eq_some_iff.1 hcaptures
  obtain ⟨captures, hmatch, hpair⟩ := Option.map_eq_some_iff.1 hfound
  obtain ⟨rfl, hslots⟩ := Prod.mk.inj hpair
  have hparse := parse_eq_of_toOption hp
  obtain ⟨score, hscore, -, -, htyped, hlength⟩ := specificity_measures_matches _ p hparse _ _ hmatch
  rw [hslots] at htyped hlength
  exact ⟨p, score, hparse, hmatch, hscore, hslots, htyped, hlength⟩

end Pattern

end Gherkin
