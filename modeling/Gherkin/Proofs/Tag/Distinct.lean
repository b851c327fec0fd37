import Mathlib.Data.List.Nodup

/-!
# First occurrences

A list of tags is kept by the first occurrence of each.  So is a list to which tags are added one by one, where a
tag that is there already is not added.
-/

namespace Gherkin

/-- The first occurrences of a list hold nothing twice. -/
theorem nodup_eraseDups (xs : List String) : xs.eraseDups.Nodup := by
  induction hlength : xs.length using Nat.strongRecOn generalizing xs with
  | ind n ih =>
    cases xs with
    | nil => simp
    | cons x xs =>
      have hshorter : (xs.filter fun y => !y == x).length < n := by
        rw [← hlength, List.length_cons]
        exact Nat.lt_succ_of_le (List.length_filter_le _ xs)
      rw [List.eraseDups_cons, List.nodup_cons]
      exact ⟨by simp, ih _ hshorter _ rfl⟩

theorem eraseDups_of_nodup {xs : List String} (h : xs.Nodup) : xs.eraseDups = xs := by
  induction xs with
  | nil => rfl
  | cons x xs ih =>
    rcases List.nodup_cons.1 h with ⟨hx, hxs⟩
    have hfilter : (xs.filter fun y => !y == x) = xs := by
      apply List.filter_eq_self.2
      intro y hy
      have hne : y ≠ x := fun heq => hx (heq ▸ hy)
      simpa using hne
    rw [List.eraseDups_cons, hfilter, ih hxs]

/-- A list with one more behind it has one more first occurrence, unless that was there before. -/
theorem eraseDups_concat (xs : List String) (x : String) :
    (xs ++ [x]).eraseDups = if x ∈ xs then xs.eraseDups else xs.eraseDups ++ [x] := by
  rw [List.eraseDups_append, List.cons_removeAll, List.nil_removeAll]
  by_cases hx : x ∈ xs
  · rw [if_pos hx, if_neg (by simpa using hx)]
    exact List.append_nil _
  · rw [if_neg hx, if_pos (by simpa using hx)]
    rfl

end Gherkin
