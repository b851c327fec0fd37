import Gherkin.Text.Lines
import Gherkin.Proofs.Text.Trimming

/-!
# Where lines end

The lines of a text hold no line feed, only the last one may lack an end, and a text that is put together
from lines is cut into the same lines again.
-/

namespace Gherkin.Text

/-- What follows a line body: nothing, or the line feed, perhaps after a carriage return. -/
def AtLineEnd (cs : List Char) : Prop :=
  cs = [] ∨ ∃ rest, cs = '\n' :: rest ∨ cs = '\r' :: '\n' :: rest

def WellCut : List Line → Prop
  | [] => True
  | l :: ls => '\n' ∉ l.body ∧ (l.ending = .missing → ls = []) ∧ WellCut ls

theorem atLineEnd_of_wellCut {l : Line} {ls : List Line} (h : WellCut (l :: ls)) :
    AtLineEnd (l.ending.chars ++ ls.flatMap Line.chars) := by
  cases hending : l.ending with
  | lf => exact Or.inr ⟨_, Or.inl rfl⟩
  | crlf => exact Or.inr ⟨_, Or.inr rfl⟩
  | missing =>
    rw [h.2.1 hending]
    exact Or.inl rfl

theorem wellCut_lines (cs : List Char) : WellCut (lines cs) := by
  fun_induction lines cs with
  | case1 => trivial
  | case2 cs ih => exact ⟨by simp, by simp, ih⟩
  | case3 cs ih => exact ⟨by simp, by simp, ih⟩
  | case4 c cs hlf _ h ih => exact ⟨by simpa using fun heq => hlf heq.symm, fun _ => rfl, trivial⟩
  | case5 c cs hlf _ l ls h ih =>
    rw [h] at ih
    exact ⟨by simpa using ⟨fun heq => hlf heq.symm, ih.1⟩, ih.2⟩

theorem wellCut_of_append {as bs : List Line} (h : WellCut (as ++ bs)) : WellCut bs := by
  induction as with
  | nil => exact h
  | cons a as ih => exact ih h.2.2

theorem not_mem_body_of_wellCut {ls : List Line} (h : WellCut ls) : ∀ l ∈ ls, '\n' ∉ l.body := by
  induction ls with
  | nil => simp
  | cons l ls ih => exact List.forall_mem_cons.2 ⟨h.1, ih h.2.2⟩

/-- The trimmed text up to the end of a line is the trimmed body of the line. -/
theorem trim_takeWhile_append {cs rest : List Char} (hcs : '\n' ∉ cs) (hrest : AtLineEnd rest) :
    trim ((cs ++ rest).takeWhile (· ≠ '\n')) = trim cs := by
  have hall : ∀ c ∈ cs, (decide (c ≠ '\n')) = true := by
    intro c hc
    exact decide_eq_true fun h => hcs (h ▸ hc)
  rw [List.takeWhile_append_of_pos hall]
  rcases hrest with rfl | ⟨rest, rfl | rfl⟩
  · simp
  · simp
  · exact trim_append_of_forall cs (by simp; decide)

/-- A body without a line feed and without a carriage return at its end, closed by a line feed, is the
first line. -/
theorem lines_append_lf {body : List Char} (hlf : '\n' ∉ body) (hcr : body.getLast? ≠ some '\r')
    (rest : List Char) : lines (body ++ '\n' :: rest) = ⟨body, .lf⟩ :: lines rest := by
  induction body with
  | nil => simp [lines]
  | cons c cs ih =>
    have hc : c ≠ '\n' := fun h => hlf (by simp [h])
    have htail : lines (cs ++ '\n' :: rest) = ⟨cs, .lf⟩ :: lines rest := by
      refine ih (fun h => hlf (by simp [h])) fun h => hcr ?_
      cases cs with
      | nil => simp at h
      | cons d ds => simpa using h
    -- A carriage return here is not the one of a line end: more of the body follows it.
    have hnext : ∀ ds, c = '\r' → cs ++ '\n' :: rest ≠ '\n' :: ds := by
      rintro ds rfl h
      cases cs with
      | nil => simp at hcr
      | cons d ds' => exact hlf (by simp [(List.cons.inj h).1])
    rw [List.cons_append, lines.eq_def]
    split
    · rename_i h
      simp at h
    · rename_i h
      exact absurd (List.cons.inj h).1 hc
    · rename_i h
      exact absurd (List.cons.inj h).2 (hnext _ (List.cons.inj h).1)
    · rename_i h
      obtain ⟨rfl, rfl⟩ := List.cons.inj h
      rw [htail]

theorem lines_eq_singleton {body : List Char} (hne : body ≠ []) (hlf : '\n' ∉ body) :
    lines body = [⟨body, .missing⟩] := by
  induction body with
  | nil => exact absurd rfl hne
  | cons c cs ih =>
    have hc : c ≠ '\n' := fun h => hlf (by simp [h])
    have hcs : '\n' ∉ cs := fun h => hlf (List.mem_cons_of_mem c h)
    rw [lines.eq_def]
    split
    · rename_i h
      simp at h
    · rename_i h
      exact absurd (List.cons.inj h).1 hc
    · rename_i h
      exact absurd (by rw [(List.cons.inj h).2]; exact List.mem_cons_self) hcs
    · rename_i h
      rcases List.cons.inj h with ⟨rfl, rfl⟩
      cases cs with
      | nil => rfl
      | cons d ds => rw [ih (by simp) hcs]

theorem lines_eq_nil_iff {cs : List Char} : lines cs = [] ↔ cs = [] := by
  constructor
  · intro h
    rw [← flatMap_chars_lines cs, h, List.flatMap_nil]
  · rintro rfl
    rfl

/-- A text that ends with a line feed, without its first character. -/
theorem getLast?_tail {c : Char} {cs : List Char} (h : (c :: cs).getLast? = some '\n') :
    cs = [] ∧ c = '\n' ∨ cs ≠ [] ∧ cs.getLast? = some '\n' := by
  cases cs with
  | nil => exact Or.inl ⟨rfl, by simpa using h⟩
  | cons d ds => exact Or.inr ⟨by simp, by simpa [List.getLast?_cons_cons] using h⟩

/-- Where a text ends with a line feed, more text starts a line. -/
theorem lines_append {as : List Char} (h : as = [] ∨ as.getLast? = some '\n') (bs : List Char) :
    lines (as ++ bs) = lines as ++ lines bs := by
  fun_induction lines as with
  | case1 => rfl
  | case2 cs ih =>
    have hcs : cs = [] ∨ cs.getLast? = some '\n' :=
      (getLast?_tail (h.resolve_left (by simp))).imp And.left And.right
    rw [List.cons_append, lines, ih hcs, List.cons_append]
  | case3 cs ih =>
    have hlf : ('\n' :: cs).getLast? = some '\n' :=
      ((getLast?_tail (h.resolve_left (by simp))).resolve_left (by simp)).2
    have hcs : cs = [] ∨ cs.getLast? = some '\n' := (getLast?_tail hlf).imp And.left And.right
    rw [List.cons_append, List.cons_append, lines, ih hcs, List.cons_append]
  | case4 c cs hlf _ hnil =>
    obtain ⟨-, hc⟩ | ⟨hne, -⟩ := getLast?_tail (h.resolve_left (by simp))
    · exact absurd hc hlf
    · exact absurd (lines_eq_nil_iff.1 hnil) hne
  | case5 c cs hlf hcr l ls hcons ih =>
    obtain ⟨-, hc⟩ | ⟨hne, hlast⟩ := getLast?_tail (h.resolve_left (by simp))
    · exact absurd hc hlf
    have hcr' : ∀ ds, c = '\r' → cs ++ bs ≠ '\n' :: ds := by
      intro ds hc heq
      cases cs with
      | nil => exact hne rfl
      | cons d ds' => exact hcr ds' hc (by rw [(List.cons.inj heq).1])
    rw [List.cons_append, lines.eq_4 c (cs ++ bs) hlf hcr', ih (Or.inr hlast), hcons]
    rfl

def Line.IsWhole (l : Line) : Prop := '\n' ∉ l.body ∧ l.ending ≠ .missing

/-- Every line of a text that ends with a line feed has a line end. -/
theorem isWhole_of_mem_lines {cs : List Char} (h : cs.getLast? = some '\n') {l : Line}
    (hl : l ∈ lines cs) : l.IsWhole := by
  have hnone : ∀ l, l ∉ lines [] := by simp [lines]
  -- The induction follows `lines`: the text behind a line end is empty or ends with a line feed again.
  fun_induction lines cs generalizing l with
  | case1 => exact absurd hl (hnone l)
  | case2 cs ih =>
    rcases List.mem_cons.1 hl with rfl | hl
    · exact ⟨by simp, by simp⟩
    · obtain ⟨rfl, -⟩ | ⟨-, hlast⟩ := getLast?_tail h
      · exact absurd hl (hnone l)
      · exact ih hlast hl
  | case3 cs ih =>
    rcases List.mem_cons.1 hl with rfl | hl
    · exact ⟨by simp, by simp⟩
    · have hlf := ((getLast?_tail h).resolve_left (by simp)).2
      obtain ⟨rfl, -⟩ | ⟨-, hlast⟩ := getLast?_tail hlf
      · exact absurd hl (hnone l)
      · exact ih hlast hl
  | case4 c cs hlf _ hnil =>
    obtain ⟨-, hc⟩ | ⟨hne, -⟩ := getLast?_tail h
    · exact absurd hc hlf
    · exact absurd (lines_eq_nil_iff.1 hnil) hne
  | case5 c cs hlf _ first ls hcons ih =>
    obtain ⟨-, hc⟩ | ⟨-, hlast⟩ := getLast?_tail h
    · exact absurd hc hlf
    rw [hcons] at ih
    rcases List.mem_cons.1 hl with rfl | hl
    · obtain ⟨hbody, hending⟩ := ih hlast List.mem_cons_self
      exact ⟨by simpa using ⟨fun hc => hlf hc.symm, hbody⟩, hending⟩
    · exact ih hlast (List.mem_cons_of_mem first hl)

/-! ## Joined lines -/

theorem mem_of_mem_intercalate {sep : List Char} {ls : List (List Char)} {c : Char}
    (h : c ∈ List.intercalate sep ls) : c ∈ sep ∨ ∃ l ∈ ls, c ∈ l := by
  induction ls with
  | nil => simp at h
  | cons m ls ih =>
    cases ls with
    | nil =>
      rw [List.intercalate_singleton] at h
      exact Or.inr ⟨m, List.mem_cons_self, h⟩
    | cons m' ls =>
      rw [List.intercalate_cons_cons, List.append_assoc] at h
      rcases List.mem_append.1 h with h | h
      · exact Or.inr ⟨m, List.mem_cons_self, h⟩
      · rcases List.mem_append.1 h with h | h
        · exact Or.inl h
        · rcases ih h with h | ⟨l, hl, hc⟩
          · exact Or.inl h
          · exact Or.inr ⟨l, List.mem_cons_of_mem m hl, hc⟩

theorem not_mem_of_mem_splitOn {a : Char} {cs l : List Char} (h : l ∈ cs.splitOn a) : a ∉ l := by
  induction cs generalizing l with
  | nil =>
    rw [List.splitOn_nil] at h
    simp [List.mem_singleton.1 h]
  | cons c cs ih =>
    rw [List.splitOn_cons_eq_if_modifyHead] at h
    by_cases hc : c = a
    · rw [if_pos (by simpa using hc)] at h
      rcases List.mem_cons.1 h with rfl | h
      · simp
      · exact ih h
    · rw [if_neg (by simpa using hc)] at h
      cases hsplit : cs.splitOn a with
      | nil => exact absurd hsplit (List.splitOn_ne_nil a cs)
      | cons m ms =>
        rw [hsplit, List.modifyHead_cons] at h
        rw [hsplit] at ih
        rcases List.mem_cons.1 h with rfl | h
        · intro ha
          rcases List.mem_cons.1 ha with ha | ha
          · exact hc ha.symm
          · exact ih List.mem_cons_self ha
        · exact ih (List.mem_cons_of_mem m h)

/-- Joined lines of which the last is not empty are cut into the same lines again. -/
theorem map_body_lines_intercalate {ls : List (List Char)} (hlf : ∀ l ∈ ls, '\n' ∉ l)
    (hcr : ∀ l ∈ ls, l.getLast? ≠ some '\r') (hlast : ls.getLast? ≠ some []) :
    (lines (List.intercalate ['\n'] ls)).map Line.body = ls := by
  induction ls with
  | nil => rfl
  | cons l ls ih =>
    cases ls with
    | nil =>
      have hne : l ≠ [] := by simpa using hlast
      rw [List.intercalate_singleton, lines_eq_singleton hne (hlf l List.mem_cons_self)]
      rfl
    | cons m ls =>
      rw [List.intercalate_cons_cons, List.append_assoc, List.singleton_append,
        lines_append_lf (hlf l List.mem_cons_self) (hcr l List.mem_cons_self), List.map_cons,
        ih (fun x hx => hlf x (List.mem_cons_of_mem l hx)) (fun x hx => hcr x (List.mem_cons_of_mem l hx))
          (by simpa [List.getLast?_cons_cons] using hlast)]

end Gherkin.Text
