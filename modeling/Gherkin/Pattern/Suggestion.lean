import Gherkin.Pattern

/-!
# Suggested patterns

For a text that no pattern matches a pattern is suggested that does: its quoted strings, decimals and
whole numbers become slots, and all else is literal.
-/

namespace Gherkin

namespace Suggestion

def digits? (cs : List Char) : Option (List Char × List Char) :=
  let found := cs.takeWhile Text.isDecimalDigit
  if found.isEmpty then none else some (found, cs.dropWhile Text.isDecimalDigit)

theorem length_lt_of_digits? {cs found rest : List Char} (h : digits? cs = some (found, rest)) :
    rest.length < cs.length := by
  unfold digits? at h
  dsimp only at h
  split at h
  · cases h
  · rename_i hne
    obtain ⟨rfl, rfl⟩ := Prod.mk.inj (Option.some.inj h)
    have hsplit := congrArg List.length
      (List.takeWhile_append_dropWhile (p := Text.isDecimalDigit) (l := cs))
    have hpos : (cs.takeWhile Text.isDecimalDigit).length ≠ 0 := by
      intro hzero
      exact hne (by simp [List.length_eq_zero_iff.1 hzero])
    rw [List.length_append] at hsplit
    omega

/-- The number at the front of a text, without a sign: its slot and the rest. -/
def number? (cs : List Char) : Option (Slot × List Char) :=
  match digits? cs with
  | none => none
  | some (_, rest) =>
    match rest with
    | '.' :: more =>
      match digits? more with
      | some (_, rest') => some (.float, rest')
      | none => some (.int, rest)
    | _ => some (.int, rest)

theorem length_lt_of_number? {cs rest : List Char} {s : Slot} (h : number? cs = some (s, rest)) :
    rest.length < cs.length := by
  unfold number? at h
  split at h
  · cases h
  · rename_i hdigits
    have := length_lt_of_digits? hdigits
    split at h
    · split at h
      · rename_i hmore
        have := length_lt_of_digits? hmore
        obtain ⟨-, rfl⟩ := Prod.mk.inj (Option.some.inj h)
        simp_all
        omega
      · obtain ⟨-, rfl⟩ := Prod.mk.inj (Option.some.inj h)
        exact this
    · obtain ⟨-, rfl⟩ := Prod.mk.inj (Option.some.inj h)
      exact this

def value? (c : Char) (cs : List Char) : Option (Slot × List Char) :=
  if c = '"' then
    match cs.dropWhile (· ≠ '"') with
    | _ :: rest => some (.string, rest)
    | [] => none
  else if c = '-' then number? cs
  else number? (c :: cs)

theorem length_le_of_value? {c : Char} {cs rest : List Char} {s : Slot}
    (h : value? c cs = some (s, rest)) : rest.length ≤ cs.length := by
  unfold value? at h
  split at h
  · split at h
    · rename_i hdrop
      obtain ⟨-, rfl⟩ := Prod.mk.inj (Option.some.inj h)
      have := (List.dropWhile_suffix (· ≠ '"') (l := cs)).length_le
      rw [hdrop, List.length_cons] at this
      omega
    · cases h
  · split at h
    · exact Nat.le_of_lt (length_lt_of_number? h)
    · have := length_lt_of_number? h
      rw [List.length_cons] at this
      omega

def escape (c : Char) : List Char :=
  if c = '{' || c = '}' || c = '\\' then ['\\', c] else [c]

def chars : List Char → List Char
  | [] => []
  | c :: cs =>
    match h : value? c cs with
    | some (s, rest) =>
      have : rest.length ≤ cs.length := length_le_of_value? h
      s.text.toList ++ chars rest
    | none => escape c ++ chars cs
termination_by cs => cs.length

end Suggestion

def suggest (text : String) : String := String.ofList (Suggestion.chars text.toList)

end Gherkin
