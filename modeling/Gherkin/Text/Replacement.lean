/-!
# Replacing every occurrence of a word

Occurrences are found from left to right and do not overlap.
-/

namespace Gherkin.Text

def dropWord? : List Char → List Char → Option (List Char)
  | [], cs => some cs
  | _ :: _, [] => none
  | w :: ws, c :: cs => if w = c then dropWord? ws cs else none

theorem dropWord?_eq_some_iff {word cs rest : List Char} :
    dropWord? word cs = some rest ↔ cs = word ++ rest := by
  fun_induction dropWord? word cs with
  | case1 => simp [eq_comm]
  | case2 => simp
  | case3 w ws cs ih => simp [ih]
  | case4 w ws c cs h => simp [Ne.symm h]

theorem length_le_of_dropWord? {w c : Char} {ws cs rest : List Char}
    (h : dropWord? (w :: ws) (c :: cs) = some rest) : rest.length ≤ cs.length := by
  have hlength := congrArg List.length (dropWord?_eq_some_iff.1 h)
  simp only [List.length_cons, List.length_append] at hlength
  omega

def replaceAll (w : Char) (ws new : List Char) : List Char → List Char
  | [] => []
  | c :: cs =>
    match h : dropWord? (w :: ws) (c :: cs) with
    | some rest =>
      have : rest.length ≤ cs.length := length_le_of_dropWord? h
      new ++ replaceAll w ws new rest
    | none => c :: replaceAll w ws new cs
termination_by cs => cs.length

end Gherkin.Text
