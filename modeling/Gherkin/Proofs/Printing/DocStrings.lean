import Gherkin.DocString
import Gherkin.Proofs.Text.Trimming

/-!
# Written doc strings read back

Writing puts a backslash before each mark of a delimiter in the content, and reading takes written delimiters
back.  The two undo each other on what reading gives: there, two more marks follow whatever looks like a
written delimiter.
-/

namespace Gherkin

namespace Text

section
variable {w : Char} {ws new : List Char}

theorem replaceAll_nil : replaceAll w ws new [] = [] := by
  rw [replaceAll]

theorem replaceAll_word (rest : List Char) :
    replaceAll w ws new (w :: ws ++ rest) = new ++ replaceAll w ws new rest := by
  rw [List.cons_append, replaceAll]
  split
  · rename_i more h
    have hmore : w :: (ws ++ rest) = w :: (ws ++ more) := dropWord?_eq_some_iff.1 h
    have hrest : rest = more := List.append_cancel_left (List.cons.inj hmore).2
    subst hrest
    rfl
  · rename_i h
    rw [dropWord?_eq_some_iff.2 List.cons_append.symm] at h
    simp at h

theorem replaceAll_cons {c : Char} {cs : List Char} (h : ∀ rest, c :: cs ≠ w :: ws ++ rest) :
    replaceAll w ws new (c :: cs) = c :: replaceAll w ws new cs := by
  rw [replaceAll]
  split
  · rename_i rest hdrop
    exact absurd (dropWord?_eq_some_iff.1 hdrop) (h rest)
  · rfl

/-- Replacing goes by the words at the front of a text and by single characters. -/
theorem replaceAll_induction (w : Char) (ws : List Char) {motive : List Char → Prop}
    (nil : motive []) (word : ∀ rest, motive rest → motive (w :: ws ++ rest))
    (cons : ∀ c cs, (∀ rest, c :: cs ≠ w :: ws ++ rest) → motive cs → motive (c :: cs))
    (cs : List Char) : motive cs := by
  fun_induction replaceAll w ws [] cs with
  | case1 => exact nil
  | case2 c cs rest hdrop _ ih =>
    rw [dropWord?_eq_some_iff.1 hdrop]
    exact word rest ih
  | case3 c cs hdrop ih =>
    refine cons c cs (fun rest hrest => ?_) ih
    rw [dropWord?_eq_some_iff.2 hrest] at hdrop
    simp at hdrop

theorem mem_of_mem_replaceAll {cs : List Char} {c : Char} (h : c ∈ replaceAll w ws new cs) :
    c ∈ cs ∨ c ∈ new := by
  induction cs using replaceAll_induction w ws with
  | nil =>
    rw [replaceAll_nil] at h
    exact Or.inl h
  | word rest ih =>
    rw [replaceAll_word] at h
    rcases List.mem_append.1 h with hnew | hrest
    · exact Or.inr hnew
    · rcases ih hrest with hmem | hnew
      · exact Or.inl (List.mem_append_right _ hmem)
      · exact Or.inr hnew
  | cons d cs hno ih =>
    rw [replaceAll_cons hno] at h
    rcases List.mem_cons.1 h with rfl | hrest
    · exact Or.inl List.mem_cons_self
    · rcases ih hrest with hmem | hnew
      · exact Or.inl (List.mem_cons_of_mem d hmem)
      · exact Or.inr hnew

/-- A character that is not in the word parts the text into two that are replaced separately. -/
theorem replaceAll_append_cons {b : Char} (hb : b ∉ w :: ws) (as bs : List Char) :
    replaceAll w ws new (as ++ b :: bs) = replaceAll w ws new as ++ b :: replaceAll w ws new bs := by
  induction as using replaceAll_induction w ws with
  | nil =>
    have hno : ∀ rest, b :: bs ≠ w :: ws ++ rest := by
      intro rest h
      exact hb (List.mem_cons.2 (Or.inl (List.cons.inj h).1))
    rw [List.nil_append, replaceAll_cons hno, replaceAll_nil, List.nil_append]
  | word rest ih =>
    rw [List.append_assoc, replaceAll_word, replaceAll_word, ih, List.append_assoc]
  | cons c cs hno ih =>
    have hno' : ∀ rest, c :: (cs ++ b :: bs) ≠ w :: ws ++ rest := by
      intro rest h
      rw [← List.cons_append] at h
      rcases List.append_eq_append_iff.1 h with ⟨more, hmore, hbs⟩ | ⟨more, hmore, -⟩
      · -- A word that went past the text would hold the parting character.
        cases more with
        | nil => exact hno [] (by simpa using hmore.symm)
        | cons e more =>
          rw [← (List.cons.inj hbs).1] at hmore
          exact hb (by rw [hmore]; simp)
      · exact hno more hmore
    rw [List.cons_append, replaceAll_cons hno', replaceAll_cons hno, ih, List.cons_append]

theorem replaceAll_intercalate {b : Char} (hb : b ∉ w :: ws) (ls : List (List Char)) :
    replaceAll w ws new (List.intercalate [b] ls) =
      List.intercalate [b] (ls.map (replaceAll w ws new)) := by
  induction ls with
  | nil => exact replaceAll_nil
  | cons l ls ih =>
    cases ls with
    | nil => simp [List.intercalate]
    | cons m ls =>
      rw [List.intercalate_cons_cons, List.append_assoc, List.singleton_append,
        replaceAll_append_cons hb, ih]
      simp only [List.map_cons]
      rw [List.intercalate_cons_cons, List.append_assoc, List.singleton_append]

/-- The last character is one of the text or of the new word. -/
theorem getLast?_replaceAll_ne {b : Char} (hnew : b ∉ new) (hne : new ≠ []) {cs : List Char}
    (h : cs.getLast? ≠ some b) : (replaceAll w ws new cs).getLast? ≠ some b := by
  induction cs using replaceAll_induction w ws with
  | nil => rwa [replaceAll_nil]
  | word rest ih =>
    rw [replaceAll_word]
    intro hlast
    by_cases hrest : replaceAll w ws new rest = []
    · rw [hrest, List.append_nil] at hlast
      exact hnew (List.mem_of_getLast? hlast)
    · have hcs : rest ≠ [] := fun hnil => hrest (by rw [hnil, replaceAll_nil])
      rw [List.getLast?_append_of_ne_nil _ hrest] at hlast
      rw [List.getLast?_append_of_ne_nil _ hcs] at h
      exact ih h hlast
  | cons c cs hno ih =>
    rw [replaceAll_cons hno]
    by_cases hcs : cs = []
    · rwa [hcs, replaceAll_nil, ← hcs]
    · have hrest : replaceAll w ws new cs ≠ [] := by
        rw [replaceAll.eq_def]
        split
        · exact hcs
        · split
          · exact List.append_ne_nil_of_left_ne_nil hne _
          · exact List.cons_ne_nil _ _
      rw [← List.singleton_append, List.getLast?_append_of_ne_nil _ hrest]
      rw [← List.singleton_append, List.getLast?_append_of_ne_nil _ hcs] at h
      exact ih h

end

end Text

namespace Delimiter

variable (d : Delimiter)

theorem mark_ne_backslash : d.mark ≠ '\\' := by cases d <;> decide

variable {d}

/-! ## Writing -/

theorem escape_nil : d.escape [] = [] := Text.replaceAll_nil

theorem escape_chars (rest : List Char) : d.escape (d.chars ++ rest) = d.escaped ++ d.escape rest :=
  Text.replaceAll_word rest

theorem escape_cons {c : Char} {cs : List Char} (h : ∀ rest, c :: cs ≠ d.chars ++ rest) :
    d.escape (c :: cs) = c :: d.escape cs :=
  Text.replaceAll_cons h

/-- What is written starts with a mark only where the text does. -/
theorem eq_cons_of_escape_eq_mark {cs rest : List Char} (h : d.escape cs = d.mark :: rest) :
    (∀ more, cs ≠ d.chars ++ more) ∧ ∃ more, cs = d.mark :: more ∧ d.escape more = rest := by
  cases cs with
  | nil => simp [escape_nil] at h
  | cons c cs =>
    by_cases hchars : ∃ more, c :: cs = d.chars ++ more
    · rcases hchars with ⟨more, hmore⟩
      rw [hmore, escape_chars] at h
      exact absurd (List.cons.inj h).1.symm d.mark_ne_backslash
    · have hno : ∀ more, c :: cs ≠ d.chars ++ more := fun more hmore => hchars ⟨more, hmore⟩
      rw [escape_cons hno] at h
      rcases List.cons.inj h with ⟨rfl, hrest⟩
      exact ⟨hno, cs, rfl, hrest⟩

theorem eq_cons_of_escape_eq_mark_backslash {cs rest : List Char}
    (h : d.escape cs = d.mark :: '\\' :: rest) :
    ∃ more, cs = d.mark :: '\\' :: more ∧ d.escape more = rest := by
  rcases eq_cons_of_escape_eq_mark h with ⟨hno, cs, rfl, hcs⟩
  cases cs with
  | nil => simp [escape_nil] at hcs
  | cons c cs =>
    have hno' : ∀ more, c :: cs ≠ d.chars ++ more := by
      intro more hmore
      exact hno (d.mark :: more) (by rw [hmore]; rfl)
    rw [escape_cons hno'] at hcs
    rcases List.cons.inj hcs with ⟨rfl, hrest⟩
    exact ⟨cs, rfl, hrest⟩

/-! ## Reading what is written -/

/-- Two more marks follow whatever looks like a written delimiter. -/
def Settled (d : Delimiter) (cs : List Char) : Prop :=
  ∀ before rest, cs = before ++ (d.escaped ++ rest) → ∃ more, rest = d.mark :: d.mark :: more

theorem Settled.of_append {as bs : List Char} (h : d.Settled (as ++ bs)) : d.Settled bs := by
  intro before rest hbs
  exact h (as ++ before) rest (by rw [hbs, List.append_assoc])

theorem unescape_escape {cs : List Char} (h : d.Settled cs) : d.unescape (d.escape cs) = cs := by
  induction cs using Text.replaceAll_induction d.mark [d.mark, d.mark] with
  | nil => rw [escape_nil]; exact Text.replaceAll_nil
  | word rest ih =>
    have hword : d.unescape (d.escaped ++ d.escape rest) = d.chars ++ d.unescape (d.escape rest) :=
      Text.replaceAll_word _
    show d.unescape (d.escape (d.chars ++ rest)) = _
    rw [escape_chars, hword, ih h.of_append]
    rfl
  | cons c cs hno ih =>
    rw [escape_cons hno]
    have hnone : ∀ rest, c :: d.escape cs ≠ d.escaped ++ rest := by
      intro rest hrest
      -- Then the text itself looks like a written delimiter at its front, and so no delimiter follows.
      rcases List.cons.inj hrest with ⟨rfl, hcs⟩
      rcases eq_cons_of_escape_eq_mark_backslash hcs with ⟨as, rfl, has⟩
      rcases eq_cons_of_escape_eq_mark_backslash has with ⟨bs, rfl, hbs⟩
      rcases eq_cons_of_escape_eq_mark hbs with ⟨hno', es, rfl, -⟩
      rcases h [] es rfl with ⟨more, rfl⟩
      exact hno' more rfl
    have hcons : d.unescape (c :: d.escape cs) = c :: d.unescape (d.escape cs) :=
      Text.replaceAll_cons hnone
    have hcs : d.Settled ([c] ++ cs) := h
    rw [hcons, ih hcs.of_append]

/-! ## What is read -/

theorem Settled.cons {c : Char} {cs : List Char} (hcs : d.Settled cs)
    (hc : ∀ rest, c :: cs = d.escaped ++ rest → ∃ more, rest = d.mark :: d.mark :: more) :
    d.Settled (c :: cs) := by
  intro before rest h
  cases before with
  | nil => exact hc rest h
  | cons b before => exact hcs before rest (List.cons.inj h).2

theorem Settled.mark_cons {cs : List Char} (hcs : d.Settled cs) : d.Settled (d.mark :: cs) := by
  apply hcs.cons
  intro rest h
  exact absurd (List.cons.inj h).1 d.mark_ne_backslash

theorem unescape_nil : d.unescape [] = [] := Text.replaceAll_nil

theorem unescape_escaped (rest : List Char) :
    d.unescape (d.escaped ++ rest) = d.chars ++ d.unescape rest :=
  Text.replaceAll_word rest

theorem unescape_cons {c : Char} {cs : List Char} (h : ∀ rest, c :: cs ≠ d.escaped ++ rest) :
    d.unescape (c :: cs) = c :: d.unescape cs :=
  Text.replaceAll_cons h

/-- A text that is read is a delimiter and more, or its first character is read. -/
theorem unescape_eq_cons {cs rest : List Char} {c : Char} (h : d.unescape cs = c :: rest) :
    (∃ more, cs = d.escaped ++ more ∧ c :: rest = d.chars ++ d.unescape more) ∨
      ∃ more, cs = c :: more ∧ d.unescape more = rest := by
  cases cs with
  | nil => simp [unescape_nil] at h
  | cons e cs =>
    by_cases hword : ∃ more, e :: cs = d.escaped ++ more
    · rcases hword with ⟨more, hmore⟩
      rw [hmore, unescape_escaped] at h
      exact Or.inl ⟨more, hmore, h.symm⟩
    · rw [unescape_cons fun more hmore => hword ⟨more, hmore⟩] at h
      rcases List.cons.inj h with ⟨rfl, hrest⟩
      exact Or.inr ⟨cs, rfl, hrest⟩

theorem unescape_eq_mark_backslash {cs rest : List Char} (h : d.unescape cs = d.mark :: '\\' :: rest) :
    ∃ more, cs = d.mark :: '\\' :: more ∧ d.unescape more = rest := by
  rcases unescape_eq_cons h with ⟨more, -, hchars⟩ | ⟨as, rfl, has⟩
  · have hsecond := (List.cons.inj (List.cons.inj hchars).2).1
    exact absurd hsecond.symm d.mark_ne_backslash
  · rcases unescape_eq_cons has with ⟨more, -, hchars⟩ | ⟨bs, rfl, hbs⟩
    · exact absurd (List.cons.inj hchars).1.symm d.mark_ne_backslash
    · exact ⟨bs, rfl, hbs⟩

theorem settled_unescape (cs : List Char) : d.Settled (d.unescape cs) := by
  induction cs using Text.replaceAll_induction '\\' [d.mark, '\\', d.mark, '\\', d.mark] with
  | nil =>
    rw [unescape_nil]
    intro before rest h
    simp [escaped] at h
  | word rest ih =>
    show d.Settled (d.unescape (d.escaped ++ rest))
    rw [unescape_escaped]
    exact ih.mark_cons.mark_cons.mark_cons
  | cons c cs hno ih =>
    rw [unescape_cons hno]
    apply ih.cons
    intro rest h
    rcases List.cons.inj h with ⟨rfl, hcs⟩
    rcases unescape_eq_mark_backslash hcs with ⟨as, rfl, has⟩
    rcases unescape_eq_mark_backslash has with ⟨bs, rfl, hbs⟩
    -- The last mark is the first of a delimiter, or else the characters were a written delimiter.
    rcases unescape_eq_cons hbs with ⟨more, -, hchars⟩ | ⟨es, rfl, -⟩
    · exact ⟨d.unescape more, (List.cons.inj hchars).2⟩
    · exact absurd rfl (hno es)

/-! ## Written lines -/

/-- No written line closes the block. -/
theorem not_closes_escape {blanks : List Char} (hblanks : ∀ c ∈ blanks, Text.isBlank c)
    (cs : List Char) : d.closes (blanks ++ d.escape cs) = false := by
  have hstart : Text.trimStart (blanks ++ d.escape cs) = Text.trimStart (d.escape cs) :=
    List.dropWhile_append_of_pos hblanks
  unfold closes
  rw [hstart]
  induction cs using Text.replaceAll_induction d.mark [d.mark, d.mark] with
  | nil =>
    rw [escape_nil]
    rfl
  | word rest ih =>
    show (Text.dropWord? d.chars (Text.trimStart (d.escape (d.chars ++ rest)))).isSome = false
    rw [escape_chars]
    cases d <;> rfl
  | cons c cs hno ih =>
    rw [escape_cons hno]
    by_cases hc : Text.isBlank c
    · rw [Text.trimStart, List.dropWhile_cons_of_pos hc]
      exact ih (List.dropWhile_append_of_pos hblanks)
    · rw [Text.trimStart_eq_self hc]
      by_contra hclose
      rw [Bool.not_eq_false, Option.isSome_iff_exists] at hclose
      rcases hclose with ⟨rest, hrest⟩
      rcases List.cons.inj (Text.dropWord?_eq_some_iff.1 hrest) with ⟨rfl, hcs⟩
      rcases eq_cons_of_escape_eq_mark hcs with ⟨-, as, rfl, has⟩
      rcases eq_cons_of_escape_eq_mark has with ⟨-, bs, rfl, -⟩
      exact hno bs rfl

theorem escape_intercalate (ls : List (List Char)) :
    d.escape (List.intercalate ['\n'] ls) = List.intercalate ['\n'] (ls.map d.escape) :=
  Text.replaceAll_intercalate (by cases d <;> decide) ls

theorem unescape_intercalate (ls : List (List Char)) :
    d.unescape (List.intercalate ['\n'] ls) = List.intercalate ['\n'] (ls.map d.unescape) :=
  Text.replaceAll_intercalate (by cases d <;> decide) ls

theorem stripIndent_spaces (n : Nat) (cs : List Char) :
    stripIndent n (List.replicate n ' ' ++ cs) = cs := by
  induction n with
  | zero => cases cs <;> rfl
  | succ n ih => exact ih

end Delimiter

end Gherkin
