import Gherkin.Proofs.Text.LineEnds

/-!
# The first line of a text

The line in front of a text is the first of its lines, and what is passed of its body leaves the rest of the body in
front.
-/

namespace Gherkin.Text

/-- The line in front of a text and what follows it, the line being empty where the text is. -/
def firstLine : List Char → Line × List Char
  | [] => (⟨[], .missing⟩, [])
  | '\n' :: cs => (⟨[], .lf⟩, cs)
  | '\r' :: '\n' :: cs => (⟨[], .crlf⟩, cs)
  | c :: cs => (⟨c :: (firstLine cs).1.body, (firstLine cs).1.ending⟩, (firstLine cs).2)

variable {c : Char} {as bs cs : List Char}

theorem chars_firstLine (cs : List Char) :
    (firstLine cs).1.body ++ ((firstLine cs).1.ending.chars ++ (firstLine cs).2) = cs := by
  fun_induction firstLine cs with
  | case1 => rfl
  | case2 => rfl
  | case3 => rfl
  | case4 c cs hlf hcrlf ih => exact congrArg (c :: ·) ih

theorem lines_eq_cons (h : cs ≠ []) : lines cs = (firstLine cs).1 :: lines (firstLine cs).2 := by
  fun_induction firstLine cs with
  | case1 => exact absurd rfl h
  | case2 => rfl
  | case3 => rfl
  | case4 c cs hlf hcrlf ih =>
    rw [lines.eq_4 c cs hlf hcrlf]
    cases cs with
    | nil => rfl
    | cons x cs => rw [ih (List.cons_ne_nil x cs)]

theorem not_mem_body_firstLine (cs : List Char) : '\n' ∉ (firstLine cs).1.body := by
  by_cases h : cs = []
  · rw [h]
    exact List.not_mem_nil
  · have hcut := wellCut_lines cs
    rw [lines_eq_cons h] at hcut
    exact hcut.1

theorem firstLine_eq_nil_of_missing (h : (firstLine cs).1.ending = .missing) : (firstLine cs).2 = [] := by
  fun_induction firstLine cs with
  | case1 => rfl
  | case2 => cases h
  | case3 => cases h
  | case4 c cs hlf hcrlf ih => exact ih h

theorem atLineEnd_firstLine (cs : List Char) : AtLineEnd ((firstLine cs).1.ending.chars ++ (firstLine cs).2) := by
  cases hending : (firstLine cs).1.ending with
  | lf => exact .inr ⟨_, .inl rfl⟩
  | crlf => exact .inr ⟨_, .inr rfl⟩
  | missing =>
    rw [firstLine_eq_nil_of_missing hending]
    exact .inl rfl

theorem firstLine_cons (h : (firstLine (c :: cs)).1.body ≠ []) : firstLine (c :: cs) =
    (⟨c :: (firstLine cs).1.body, (firstLine cs).1.ending⟩, (firstLine cs).2) := by
  apply firstLine.eq_4
  · rintro rfl
    exact h rfl
  · rintro ds rfl rfl
    exact h rfl

/-- What is passed of the body of the first line leaves the rest of the body. -/
theorem firstLine_append (h : (firstLine (as ++ cs)).1.body = as ++ bs) :
    firstLine cs = (⟨bs, (firstLine (as ++ cs)).1.ending⟩, (firstLine (as ++ cs)).2) := by
  induction as with
  | nil =>
    rw [List.nil_append, List.nil_append] at h
    rw [List.nil_append, ← h]
  | cons a as ih =>
    have hbody : (firstLine (a :: (as ++ cs))).1.body ≠ [] := h ▸ List.cons_ne_nil a (as ++ bs)
    rw [List.cons_append, firstLine_cons hbody] at h ⊢
    exact ih (List.cons.inj h).2

/-! ## What does not reach over the end of a line -/

/-- A word that holds no line feed and does not end with a carriage return ends before the line does. -/
theorem eq_append_of_atLineEnd {rest tail : List Char} {x : Char} (h : cs ++ tail = as ++ x :: rest)
    (htail : AtLineEnd tail) (has : '\n' ∉ as) (hlf : x ≠ '\n') (hcr : x ≠ '\r') :
    ∃ more, cs = as ++ x :: more ∧ rest = more ++ tail := by
  obtain ⟨past, rfl, hpast⟩ | ⟨more, hcs, hrest⟩ := List.append_eq_append_iff.1 h
  · -- The word reaches into the tail, which starts with what the word does not have.
    have hfree : '\n' ∉ past := fun hmem => has (List.mem_append_right _ hmem)
    rcases htail with rfl | ⟨rest', rfl | rfl⟩
    · simp at hpast
    · cases past with
      | nil => exact absurd (List.cons.inj hpast).1.symm hlf
      | cons y past =>
        rw [(List.cons.inj hpast).1] at hfree
        exact absurd List.mem_cons_self hfree
    · cases past with
      | nil => exact absurd (List.cons.inj hpast).1.symm hcr
      | cons y past =>
        have hnext := (List.cons.inj hpast).2
        cases past with
        | nil => exact absurd (List.cons.inj hnext).1.symm hlf
        | cons z past =>
          rw [(List.cons.inj hnext).1] at hfree
          exact absurd (List.mem_cons_of_mem y List.mem_cons_self) hfree
  · cases more with
    | nil =>
      rw [List.nil_append] at hrest
      rcases htail with rfl | ⟨rest', rfl | rfl⟩
      · cases hrest
      · exact absurd (List.cons.inj hrest).1 hlf
      · exact absurd (List.cons.inj hrest).1 hcr
    | cons y more =>
      obtain ⟨rfl, rfl⟩ := List.cons.inj hrest
      exact ⟨more, hcs, rfl⟩

theorem takeWhile_append_lineEnd {p : Char → Bool} {tail : List Char} (htail : AtLineEnd tail)
    (hlf : ¬ p '\n') (hcr : ¬ p '\r') : (cs ++ tail).takeWhile p = cs.takeWhile p := by
  induction cs with
  | nil =>
    rcases htail with rfl | ⟨rest, rfl | rfl⟩
    · rfl
    · exact List.takeWhile_cons_of_neg hlf
    · exact List.takeWhile_cons_of_neg hcr
  | cons x cs ih =>
    rw [List.cons_append, List.takeWhile_cons, List.takeWhile_cons, ih]

end Gherkin.Text
