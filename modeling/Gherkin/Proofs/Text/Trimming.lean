import Mathlib.Data.List.DropRight
import Gherkin.Text.Blank

/-!
# Laws of trimming

A text is its trimmed form between two runs of blanks, and blanks added at either end do not change the
trimmed form.
-/

namespace Gherkin.Text

/-! ## The end of a text -/

theorem dropEndWhile_append_of_forall {p : Char → Bool} (as : List Char) {bs : List Char}
    (h : ∀ b ∈ bs, p b) : dropEndWhile p (as ++ bs) = dropEndWhile p as := by
  rw [dropEndWhile, List.reverse_append, List.dropWhile_append_of_pos (by simpa using h)]
  rfl

theorem dropEndWhile_concat_of_not {p : Char → Bool} (as : List Char) {b : Char} (h : ¬ p b) :
    dropEndWhile p (as ++ [b]) = as ++ [b] :=
  List.rdropWhile_concat_neg p as b h

theorem dropEndWhile_eq_self {p : Char → Bool} {as : List Char} (h : ∀ a ∈ as, ¬ p a) :
    dropEndWhile p as = as := by
  rcases List.eq_nil_or_concat as with rfl | ⟨bs, b, rfl⟩
  · rfl
  · rw [List.concat_eq_append] at h ⊢
    exact dropEndWhile_concat_of_not bs (h b (by simp))

theorem dropEndWhile_of_not_mem {c : Char} {as : List Char} (h : c ∉ as) :
    dropEndWhile (· = c) as = as :=
  dropEndWhile_eq_self fun _ ha heq => h (of_decide_eq_true heq ▸ ha)

theorem dropEndWhile_of_getLast?_ne {c : Char} {as : List Char} (h : as.getLast? ≠ some c) :
    dropEndWhile (· = c) as = as := by
  rcases List.eq_nil_or_concat as with rfl | ⟨bs, b, rfl⟩
  · rfl
  · rw [List.concat_eq_append] at h ⊢
    exact dropEndWhile_concat_of_not bs (by simpa using h)

theorem dropEndWhile_prefix (p : Char → Bool) (as : List Char) : dropEndWhile p as <+: as :=
  List.rdropWhile_prefix p as

theorem not_of_dropEndWhile_eq_concat {p : Char → Bool} {as bs : List Char} {b : Char}
    (h : dropEndWhile p as = bs ++ [b]) : ¬ p b := by
  have hdrop : as.rdropWhile p = bs ++ [b] := h
  have hlast := List.rdropWhile_last_not p as (by rw [hdrop]; simp)
  simpa only [hdrop, List.getLast_append_singleton] using hlast

/-! ## Trimming -/

theorem forall_isBlank_of_trimStart_eq_nil {as : List Char} (h : trimStart as = []) :
    ∀ a ∈ as, isBlank a := List.dropWhile_eq_nil_iff.1 h

/-- A text is blanks, its trimmed form, and blanks. -/
theorem exists_eq_append_trim_append (as : List Char) : ∃ lead trail,
    as = lead ++ trim as ++ trail ∧ (∀ c ∈ lead, isBlank c) ∧ ∀ c ∈ trail, isBlank c := by
  refine ⟨as.takeWhile isBlank, takeEndWhile isBlank (trimStart as), ?_, ?_, ?_⟩
  · rw [List.append_assoc, trim, trimEnd, dropEndWhile_append_takeEndWhile, trimStart,
      List.takeWhile_append_dropWhile]
  · exact fun c hc => List.mem_takeWhile_imp hc
  · intro c hc
    exact List.mem_takeWhile_imp (List.mem_reverse.1 hc)

theorem trim_append_of_forall (as : List Char) {bs : List Char} (h : ∀ b ∈ bs, isBlank b) :
    trim (as ++ bs) = trim as := by
  by_cases has : trimStart as = []
  · -- Then the whole text is blank.
    have hall : ∀ c ∈ as ++ bs, isBlank c := by
      intro c hc
      rcases List.mem_append.1 hc with hc | hc
      · exact forall_isBlank_of_trimStart_eq_nil has c hc
      · exact h c hc
    rw [trim, trim, has, trimStart, List.dropWhile_eq_nil_iff.2 hall]
  · have hstart : trimStart (as ++ bs) = trimStart as ++ bs := by
      rw [trimStart, List.dropWhile_append, if_neg (by simpa [trimStart] using has)]
      rfl
    rw [trim, hstart, trimEnd, dropEndWhile_append_of_forall _ h]
    rfl

theorem trim_append_left_of_forall {as : List Char} (h : ∀ a ∈ as, isBlank a) (bs : List Char) :
    trim (as ++ bs) = trim bs := by
  rw [trim, trimStart, List.dropWhile_append_of_pos h]
  rfl

theorem trimStart_eq_self {c : Char} {cs : List Char} (h : ¬ isBlank c) :
    trimStart (c :: cs) = c :: cs := List.dropWhile_cons_of_neg h

theorem trim_idem (as : List Char) : trim (trim as) = trim as := by
  obtain ⟨lead, trail, heq, hlead, htrail⟩ := exists_eq_append_trim_append as
  calc trim (trim as) = trim (lead ++ trim as ++ trail) := by
        rw [trim_append_of_forall _ htrail, trim_append_left_of_forall hlead]
    _ = trim as := by rw [← heq]

/-- A trimmed text does not end with a blank. -/
theorem not_isBlank_of_trim_eq_concat {as cs : List Char} {c : Char} (h : trim as = cs ++ [c]) :
    ¬ isBlank c := not_of_dropEndWhile_eq_concat h

theorem mem_of_mem_trim {as : List Char} {c : Char} (h : c ∈ trim as) : c ∈ as := by
  obtain ⟨lead, trail, heq, -, -⟩ := exists_eq_append_trim_append as
  rw [heq]
  simp [h]

theorem trim_eq_self {as : List Char} (hstart : ∀ c cs, as = c :: cs → ¬ isBlank c)
    (hend : ∀ c cs, as = cs ++ [c] → ¬ isBlank c) : trim as = as := by
  cases as with
  | nil => rfl
  | cons c cs =>
    rw [trim, trimStart_eq_self (hstart c cs rfl)]
    rcases List.eq_nil_or_concat (c :: cs) with h | ⟨bs, b, h⟩
    · simp at h
    · rw [List.concat_eq_append] at h
      rw [h]
      exact dropEndWhile_concat_of_not bs (hend b bs h)

/-- A visible character in front of a trimmed text leaves nothing to trim. -/
theorem trim_cons_trim {c : Char} (hc : ¬ isBlank c) (as : List Char) : trim (c :: trim as) = c :: trim as := by
  apply trim_eq_self
  · intro d ds heq
    rwa [← (List.cons.inj heq).1]
  · intro d ds heq
    cases ds with
    | nil =>
      -- The character in front is the last one too.
      rwa [← (List.cons.inj heq).1]
    | cons e es => exact not_isBlank_of_trim_eq_concat (List.cons.inj heq).2

end Gherkin.Text
