import Gherkin.Text.Blank
import Gherkin.Text.Replacement

/-!
# Placeholders in angle brackets

A placeholder is a name between `<` and `>` on one line, the name not starting with a blank.  Looking
for placeholders and replacing known ones are two readings of the same text.
-/

namespace Gherkin.Placeholder

/-- The name that a placeholder's `<` opens, and what follows its `>`. -/
def name? (cs : List Char) : Option (List Char × List Char) :=
  match cs with
  | [] => none
  | c :: _ =>
    if Text.isBlank c || c = '>' then none
    else match cs.dropWhile (fun c => c ≠ '>' && c ≠ '\n') with
      | '>' :: rest => some (cs.takeWhile (fun c => c ≠ '>' && c ≠ '\n'), rest)
      | _ => none

theorem eq_append_of_name? {cs name rest : List Char} (h : name? cs = some (name, rest)) :
    cs = name ++ '>' :: rest := by
  unfold name? at h
  split at h
  · simp at h
  · split at h
    · simp at h
    · split at h
      · rename_i hdrop
        obtain ⟨rfl, rfl⟩ := Prod.mk.inj (Option.some.inj h)
        rw [← hdrop, List.takeWhile_append_dropWhile]
      · simp at h

def names : List Char → List (List Char)
  | [] => []
  | c :: cs =>
    if c = '<' then
      match h : name? cs with
      | some (name, rest) =>
        have : rest.length ≤ cs.length := by
          have hlength := congrArg List.length (eq_append_of_name? h)
          simp only [List.length_append, List.length_cons] at hlength
          omega
        name :: names rest
      | none => names cs
    else names cs
termination_by cs => cs.length

/-- A column of a table with the cell of the row that is filled in. -/
abbrev Binding := List Char × List Char

def lookup? (bindings : List Binding) (cs : List Char) : Option (List Char × List Char) :=
  bindings.findSome? fun (key, value) =>
    (Text.dropWord? (key ++ ['>']) cs).map (value, ·)

theorem length_lt_of_lookup? {bindings : List Binding} {cs value rest : List Char}
    (h : lookup? bindings cs = some (value, rest)) : rest.length < cs.length := by
  obtain ⟨⟨key, cell⟩, -, hkey⟩ := List.exists_of_findSome?_eq_some h
  obtain ⟨rest', hdrop, hpair⟩ := Option.map_eq_some_iff.1 hkey
  obtain ⟨-, rfl⟩ := Prod.mk.inj hpair
  rw [Text.dropWord?_eq_some_iff.1 hdrop]
  simp
  omega

/-- One pass from left to right: at each `<` the value of the first key that fits, or the `<` itself.
A value that was put in is not read again. -/
def substitute (bindings : List Binding) : List Char → List Char
  | [] => []
  | c :: cs =>
    if c = '<' then
      match h : lookup? bindings cs with
      | some (value, rest) =>
        have : rest.length ≤ cs.length := Nat.le_of_lt (length_lt_of_lookup? h)
        value ++ substitute bindings rest
      | none => c :: substitute bindings cs
    else c :: substitute bindings cs
termination_by cs => cs.length

end Gherkin.Placeholder
