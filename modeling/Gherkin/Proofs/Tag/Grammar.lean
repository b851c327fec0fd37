import Mathlib
import Gherkin.Proofs.Text.Trimming
import Gherkin.Tag.Expression

/-!
# The grammar of tag expressions

What a text of symbols looks like, and which lists of symbols are expressions.  Both are relations
that do not know how an expression is read.  A derivation carries the value of the expression on every
list of tags, so that a list of symbols with a derivation has its meaning without a tree.
-/

namespace Gherkin.Tag

/-! ## Symbols and their text -/

/-- A text written with the given symbols.  Blanks stand anywhere between symbols, a word is written in
any case, and a tag or a word goes on up to the first character that cannot be part of it. -/
inductive Written : List Char → List Symbol → Prop
  | nil : Written [] []
  | blank {c : Char} {cs : List Char} {ss : List Symbol} :
      Text.isBlank c → Written cs ss → Written (c :: cs) ss
  | opening {cs : List Char} {ss : List Symbol} :
      Written cs ss → Written ('(' :: cs) (.opening :: ss)
  | closing {cs : List Char} {ss : List Symbol} :
      Written cs ss → Written (')' :: cs) (.closing :: ss)
  | tag {name rest : List Char} {ss : List Symbol} :
      name ≠ [] → (∀ c ∈ name, Lexeme.isTagCharacter c) →
      (∀ c ∈ rest.head?, ¬ Lexeme.isTagCharacter c) → Written rest ss →
      Written ('@' :: (name ++ rest)) (.tag (String.ofList ('@' :: name)) :: ss)
  | operator {op : Operator} {word rest : List Char} {ss : List Symbol} :
      word.map Char.toLower = op.name.toList → (∀ c ∈ word, c.isAlpha) →
      (∀ c ∈ rest.head?, ¬ c.isAlpha) → Written rest ss →
      Written (word ++ rest) (.operator op :: ss)

/-- A text that starts with the given symbols, written as in a whole text, and what stands behind them.
Blanks may be left over. -/
inductive Starts : List Char → List Symbol → List Char → Prop
  | nil (cs : List Char) : Starts cs [] cs
  | blank {c : Char} {cs rest : List Char} {ss : List Symbol} :
      Text.isBlank c → Starts cs ss rest → Starts (c :: cs) ss rest
  | opening {cs rest : List Char} {ss : List Symbol} :
      Starts cs ss rest → Starts ('(' :: cs) (.opening :: ss) rest
  | closing {cs rest : List Char} {ss : List Symbol} :
      Starts cs ss rest → Starts (')' :: cs) (.closing :: ss) rest
  | tag {name cs rest : List Char} {ss : List Symbol} :
      name ≠ [] → (∀ c ∈ name, Lexeme.isTagCharacter c) →
      (∀ c ∈ cs.head?, ¬ Lexeme.isTagCharacter c) → Starts cs ss rest →
      Starts ('@' :: (name ++ cs)) (.tag (String.ofList ('@' :: name)) :: ss) rest
  | operator {op : Operator} {word cs rest : List Char} {ss : List Symbol} :
      word.map Char.toLower = op.name.toList → (∀ c ∈ word, c.isAlpha) →
      (∀ c ∈ cs.head?, ¬ c.isAlpha) → Starts cs ss rest →
      Starts (word ++ cs) (.operator op :: ss) rest

/-! ## Derivations -/

/-- The levels of the grammar, from the loosest to the tightest. -/
inductive Level where
  | or
  | and
  | not
deriving DecidableEq, Repr

/-- The symbols of an expression of a level, and the value of the expression on every list of tags. -/
inductive Derives : Level → List Symbol → (List String → Bool) → Prop
  | tag (name : String) : Derives .not [.tag name] fun tags => decide (name ∈ tags)
  | parentheses {ss : List Symbol} {v : List String → Bool} :
      Derives .or ss v → Derives .not (.opening :: (ss ++ [.closing])) v
  | not {ss : List Symbol} {v : List String → Bool} :
      Derives .not ss v → Derives .not (.operator .not :: ss) fun tags => !v tags
  | operand {ss : List Symbol} {v : List String → Bool} : Derives .not ss v → Derives .and ss v
  | and {ls rs : List Symbol} {v w : List String → Bool} :
      Derives .and ls v → Derives .not rs w →
      Derives .and (ls ++ .operator .and :: rs) fun tags => v tags && w tags
  | conjuncts {ss : List Symbol} {v : List String → Bool} : Derives .and ss v → Derives .or ss v
  | or {ls rs : List Symbol} {v w : List String → Bool} :
      Derives .or ls v → Derives .and rs w →
      Derives .or (ls ++ .operator .or :: rs) fun tags => v tags || w tags

/-! ## The symbol reader reads what is written -/

theorem operator?_eq_some_iff {word : List Char} {op : Operator} :
    operator? word = some op ↔ word.map Char.toLower = op.name.toList := by
  have hname : ∀ name : String,
      String.ofList (word.map Char.toLower) = name ↔ word.map Char.toLower = name.toList := by
    intro name
    rw [← String.toList_inj, String.toList_ofList]
  rw [← hname, operator?]
  constructor
  · intro h
    split at h
    case h_4 => simp at h
    all_goals
      rename_i heq
      obtain rfl := Option.some.inj h
      exact heq
  · intro h
    rw [h]
    cases op <;> rfl

/-- A run of characters of a class that the rest does not continue is what the class takes. -/
theorem span_append {p : Char → Bool} {run rest : List Char} (hrun : ∀ c ∈ run, p c)
    (hrest : ∀ c ∈ rest.head?, ¬ p c) :
    (run ++ rest).takeWhile p = run ∧ (run ++ rest).dropWhile p = rest := by
  rw [List.takeWhile_append_of_pos hrun, List.dropWhile_append_of_pos hrun]
  cases rest with
  | nil => simp
  | cons c rest =>
    have hc : ¬ p c := hrest c rfl
    rw [List.takeWhile_cons_of_neg hc, List.dropWhile_cons_of_neg hc, List.append_nil]
    exact ⟨rfl, rfl⟩

theorem not_of_mem_head?_dropWhile {p : Char → Bool} {cs : List Char} :
    ∀ c ∈ (cs.dropWhile p).head?, ¬ p c := by
  intro c hc
  have hhead := List.head?_dropWhile_not p cs
  rw [Option.mem_def.1 hc] at hhead
  simpa using hhead

theorem not_isBlank_of_isTagCharacter {c : Char} (h : Lexeme.isTagCharacter c) :
    ¬ Text.isBlank c := by
  have hval : c.toNat = c.val.toNat := rfl
  simp only [Lexeme.isTagCharacter, Char.isAlphanum, Char.isAlpha, Char.isUpper, Char.isLower,
    Char.isDigit, Bool.or_eq_true, Bool.and_eq_true, decide_eq_true_eq, UInt32.le_iff_toNat_le,
    ge_iff_le] at h
  simp only [Text.isBlank, Bool.or_eq_true, Bool.and_eq_true, decide_eq_true_eq, beq_iff_eq]
  obtain (hc | rfl) | rfl := h
  · change (((65 ≤ c.val.toNat ∧ c.val.toNat ≤ 90) ∨ 97 ≤ c.val.toNat ∧ c.val.toNat ≤ 122) ∨
      48 ≤ c.val.toNat ∧ c.val.toNat ≤ 57) at hc
    omega
  · decide
  · decide

theorem isTagCharacter_of_isAlpha {c : Char} (h : c.isAlpha) : Lexeme.isTagCharacter c := by
  simp [Lexeme.isTagCharacter, Char.isAlphanum, h]

theorem Written.starts {cs : List Char} {ss : List Symbol} (h : Written cs ss) : Starts cs ss [] := by
  induction h with
  | nil => exact .nil []
  | blank hc _ ih => exact .blank hc ih
  | opening _ ih => exact .opening ih
  | closing _ ih => exact .closing ih
  | tag hne hname hrest _ ih => exact .tag hne hname hrest ih
  | operator hword halpha hrest _ ih => exact .operator hword halpha hrest ih

/-- The symbols that a text starts with are read first, and then those of what stands behind them. -/
theorem symbols_of_starts {cs rest : List Char} {ss : List Symbol} (h : Starts cs ss rest) (offset : Nat) :
    ∃ offset', (symbols offset cs).fault = (symbols offset' rest).fault ∧
      (symbols offset cs).placed.map Prod.snd = ss ++ (symbols offset' rest).placed.map Prod.snd := by
  -- The reader counts offsets that `Starts` knows nothing of; hence any offset, and another one behind.
  induction h generalizing offset with
  | nil cs => exact ⟨offset, rfl, rfl⟩
  | blank hblank _ ih =>
    rw [symbols, if_pos hblank]
    exact ih _
  | opening _ ih =>
    obtain ⟨offset', hfault, hplaced⟩ := ih (offset + 1)
    rw [symbols, if_neg (by decide), if_pos rfl]
    exact ⟨offset', hfault, congrArg (Symbol.opening :: ·) hplaced⟩
  | closing _ ih =>
    obtain ⟨offset', hfault, hplaced⟩ := ih (offset + 1)
    rw [symbols, if_neg (by decide), if_neg (by decide), if_pos rfl]
    exact ⟨offset', hfault, congrArg (Symbol.closing :: ·) hplaced⟩
  | @tag name cs rest ss hne hname hrest _ ih =>
    obtain ⟨offset', hfault, hplaced⟩ := ih (offset + 1 + name.length)
    obtain ⟨htake, hdrop⟩ := span_append hname hrest
    rw [symbols, if_neg (by decide), if_neg (by decide), if_neg (by decide), if_pos rfl]
    dsimp only
    rw [htake, hdrop, if_neg (by simpa using hne)]
    exact ⟨offset', hfault, congrArg (Symbol.tag (String.ofList ('@' :: name)) :: ·) hplaced⟩
  | @operator op word cs rest ss hword halpha hrest _ ih =>
    cases word with
    | nil => cases op <;> simp [Operator.name] at hword
    | cons c word =>
      have hc : c.isAlpha := halpha c List.mem_cons_self
      have hblank : ¬ Text.isBlank c := not_isBlank_of_isTagCharacter (isTagCharacter_of_isAlpha hc)
      have hop : operator? (c :: word) = some op := operator?_eq_some_iff.2 hword
      have hrun : ∀ d ∈ word, d.isAlpha := fun d hd => halpha d (List.mem_cons_of_mem c hd)
      obtain ⟨offset', hfault, hplaced⟩ := ih (offset + (c :: word).length)
      obtain ⟨htake, hdrop⟩ := span_append hrun hrest
      rw [List.cons_append, symbols, if_neg hblank, if_neg (by rintro rfl; simp at hc),
        if_neg (by rintro rfl; simp at hc), if_neg (by rintro rfl; simp at hc), if_pos hc]
      dsimp only
      rw [htake, hdrop, hop]
      exact ⟨offset', hfault, congrArg (Symbol.operator op :: ·) hplaced⟩

theorem symbols_of_written {cs : List Char} {ss : List Symbol} (h : Written cs ss) (offset : Nat) :
    (symbols offset cs).fault = none ∧ (symbols offset cs).placed.map Prod.snd = ss := by
  obtain ⟨offset', hfault, hplaced⟩ := symbols_of_starts h.starts offset
  rw [hfault, hplaced, symbols]
  exact ⟨rfl, List.append_nil ss⟩

/-- Where symbols are read to the end, the text is written with them. -/
theorem written_symbols {offset : Nat} {cs : List Char} (h : (symbols offset cs).fault = none) :
    Written cs ((symbols offset cs).placed.map Prod.snd) := by
  fun_induction symbols offset cs with
  | case1 => exact .nil
  | case2 offset c cs hblank ih => exact .blank hblank (ih h)
  | case3 offset cs hblank ih => exact .opening (ih h)
  | case4 offset cs hblank hopen ih => exact .closing (ih h)
  | case5 => simp at h
  | case6 offset cs name _ hne _ _ _ ih =>
    have hname : ∀ c ∈ name, Lexeme.isTagCharacter c := fun _ => List.mem_takeWhile_imp
    have htag := Written.tag (by simpa using hne) hname not_of_mem_head?_dropWhile (ih h)
    rwa [List.takeWhile_append_dropWhile] at htag
  | case7 offset c cs _ _ _ _ halpha word _ op hop ih =>
    have hword : ∀ d ∈ word, d.isAlpha := by
      intro d hd
      rcases List.mem_cons.1 hd with rfl | hd
      · exact halpha
      · exact List.mem_takeWhile_imp hd
    have hwritten := Written.operator (operator?_eq_some_iff.1 hop) hword not_of_mem_head?_dropWhile
      (ih h)
    rwa [List.cons_append, List.takeWhile_append_dropWhile] at hwritten
  | case8 => simp at h
  | case9 => simp at h

theorem Written.unique {cs : List Char} {ss ss' : List Symbol} (h : Written cs ss)
    (h' : Written cs ss') : ss = ss' :=
  (symbols_of_written h 0).2.symm.trans (symbols_of_written h' 0).2

/-! ## Blanks at the ends -/

theorem Written.of_cons_blank {b : Char} {cs : List Char} {ss : List Symbol} (hb : Text.isBlank b)
    (h : Written (b :: cs) ss) : Written cs ss := by
  generalize hds : b :: cs = ds at h
  cases h with
  | nil => simp at hds
  | blank _ h =>
    obtain ⟨-, rfl⟩ := List.cons.inj hds
    exact h
  | opening _ =>
    obtain ⟨rfl, -⟩ := List.cons.inj hds
    exact absurd hb (by decide)
  | closing _ =>
    obtain ⟨rfl, -⟩ := List.cons.inj hds
    exact absurd hb (by decide)
  | tag _ _ _ _ =>
    obtain ⟨rfl, -⟩ := List.cons.inj hds
    exact absurd hb (by decide)
  | @operator op word rest _ hword halpha _ _ =>
    cases word with
    | nil => cases op <;> simp [Operator.name] at hword
    | cons c word =>
      obtain ⟨rfl, -⟩ := List.cons.inj hds
      have hletter := isTagCharacter_of_isAlpha (halpha b List.mem_cons_self)
      exact absurd hb (not_isBlank_of_isTagCharacter hletter)

theorem Written.of_blanks_append {bs cs : List Char} {ss : List Symbol}
    (hbs : ∀ b ∈ bs, Text.isBlank b) (h : Written (bs ++ cs) ss) : Written cs ss := by
  induction bs with
  | nil => exact h
  | cons b bs ih =>
    have hnext : Written (bs ++ cs) ss := h.of_cons_blank (hbs b List.mem_cons_self)
    exact ih (fun c hc => hbs c (List.mem_cons_of_mem b hc)) hnext

/-- The last character of a text, if it is not in a run at the start, is the last one of the rest. -/
theorem exists_eq_append_of_concat_eq {cs run rest : List Char} {b : Char} (hb : b ∉ run)
    (h : cs ++ [b] = run ++ rest) : ∃ rest', rest = rest' ++ [b] ∧ cs = run ++ rest' := by
  rcases List.append_eq_append_iff.1 h with ⟨mid, rfl, hmid⟩ | ⟨mid, hcs, hmid⟩
  · cases mid with
    | nil => exact ⟨[], by simpa using hmid.symm, by simp⟩
    | cons c mid =>
      obtain ⟨rfl, -⟩ := List.cons.inj hmid
      exact absurd (by simp) hb
  · exact ⟨mid, hmid, hcs⟩

theorem Written.of_concat_blank {b : Char} {cs : List Char} {ss : List Symbol} (hb : Text.isBlank b)
    (h : Written (cs ++ [b]) ss) : Written cs ss := by
  generalize hds : cs ++ [b] = ds at h
  induction h generalizing cs with
  | nil => simp at hds
  | @blank c ds ss hc h ih =>
    obtain ⟨rfl, -, rfl⟩ | ⟨cs', rfl, rfl⟩ := List.append_eq_cons_iff.1 hds
    · exact h
    · exact .blank hc (ih rfl)
  | opening h ih =>
    obtain ⟨rfl, hlast⟩ | ⟨cs', rfl, rfl⟩ := List.append_eq_cons_iff.1 hds
    · obtain ⟨rfl, -⟩ := List.cons.inj hlast
      exact absurd hb (by decide)
    · exact .opening (ih rfl)
  | closing h ih =>
    obtain ⟨rfl, hlast⟩ | ⟨cs', rfl, rfl⟩ := List.append_eq_cons_iff.1 hds
    · obtain ⟨rfl, -⟩ := List.cons.inj hlast
      exact absurd hb (by decide)
    · exact .closing (ih rfl)
  | @tag name rest ss hne hname hrest h ih =>
    have hrun : b ∉ '@' :: name := by
      intro hmem
      rcases List.mem_cons.1 hmem with rfl | hmem
      · exact absurd hb (by decide)
      · exact not_isBlank_of_isTagCharacter (hname b hmem) hb
    obtain ⟨rest', rfl, rfl⟩ := exists_eq_append_of_concat_eq hrun hds
    refine .tag hne hname (fun c hc => hrest c ?_) (ih rfl)
    rw [List.head?_append, Option.mem_def.1 hc, Option.some_or]
    exact rfl
  | @operator op word rest ss hword halpha hrest h ih =>
    have hrun : b ∉ word := fun hmem =>
      not_isBlank_of_isTagCharacter (isTagCharacter_of_isAlpha (halpha b hmem)) hb
    obtain ⟨rest', rfl, rfl⟩ := exists_eq_append_of_concat_eq hrun hds
    refine .operator hword halpha (fun c hc => hrest c ?_) (ih rfl)
    rw [List.head?_append, Option.mem_def.1 hc, Option.some_or]
    exact rfl

theorem Written.of_append_blanks {bs cs : List Char} {ss : List Symbol}
    (hbs : ∀ b ∈ bs, Text.isBlank b) (h : Written (cs ++ bs) ss) : Written cs ss := by
  induction bs using List.reverseRecOn with
  | nil => simpa using h
  | append_singleton bs b ih =>
    rw [← List.append_assoc] at h
    have hinit : Written (cs ++ bs) ss := h.of_concat_blank (hbs b (by simp))
    exact ih (fun c hc => hbs c (by simp [hc])) hinit

/-- Blanks around an expression hold no symbol. -/
theorem Written.trim {cs : List Char} {ss : List Symbol} (h : Written cs ss) :
    Written (Text.trim cs) ss := by
  obtain ⟨lead, trail, heq, hlead, htrail⟩ := Text.exists_eq_append_trim_append cs
  rw [heq] at h
  exact (h.of_append_blanks htrail).of_blanks_append hlead

end Gherkin.Tag
