import Mathlib.Data.List.DropRight
import Gherkin.Token.Lexeme

/-!
# Spellings at the front of a line

A spelling starts a line as a keyword if the line is written like it, in whichever case the dialect allows,
and if what a keyword of its kind needs follows.
-/

namespace Gherkin

/-- A text as a dialect compares it with its spellings. -/
def Dialect.folded (d : Dialect) (cs : List Char) : List Char :=
  if d.caseSensitive then cs else cs.map Char.toLower

/-- What must follow a keyword: a colon, perhaps after blanks, if it is a block's, and a blank or the end of
the line if it is a step's. -/
def TokenKind.Ends (kind : TokenKind) (rest : List Char) : Prop :=
  if kind.isBlock then ∃ blanks more, rest = blanks ++ ':' :: more ∧ ∀ c ∈ blanks, c = ' ' ∨ c = '\t'
  else ∀ c ∈ rest.head?, c = ' ' ∨ c = '\t'

def Spelling.Starts (d : Dialect) (line : List Char) (s : Spelling) : Prop :=
  ∃ written rest, line = written ++ rest ∧ d.folded written = d.folded s.text.toList ∧ s.kind.Ends rest

theorem Dialect.length_folded (d : Dialect) (cs : List Char) : (d.folded cs).length = cs.length := by
  unfold folded
  split
  · rfl
  · exact List.length_map _

theorem Dialect.folded_cons (d : Dialect) (c : Char) (cs : List Char) :
    d.folded (c :: cs) = (if d.caseSensitive then c else c.toLower) :: d.folded cs := by
  unfold folded
  split <;> rfl

theorem Dialect.sameCharacter_iff (d : Dialect) (a b : Char) : d.sameCharacter a b = true ↔
    (if d.caseSensitive then a else a.toLower) = if d.caseSensitive then b else b.toLower := by
  unfold sameCharacter
  split <;> simp

/-- What is written as a spelling starts with its first character. -/
theorem Dialect.exists_cons_of_folded {d : Dialect} {written word : List Char} {w : Char}
    (h : d.folded written = d.folded (w :: word)) : ∃ c more, written = c :: more ∧
      d.sameCharacter w c = true ∧ d.folded more = d.folded word := by
  cases written with
  | nil =>
    have hlength := congrArg List.length h
    rw [d.length_folded, d.length_folded] at hlength
    simp at hlength
  | cons c more =>
    rw [d.folded_cons, d.folded_cons] at h
    obtain ⟨hc, hmore⟩ := List.cons.inj h
    exact ⟨c, more, rfl, (d.sameCharacter_iff w c).2 hc.symm, hmore⟩

namespace Lexeme

theorem isSpaceOrTab_iff (c : Char) : isSpaceOrTab c = true ↔ c = ' ' ∨ c = '\t' := by
  simp [isSpaceOrTab]

theorem spelled?_eq_some_iff {d : Dialect} {word cs written rest : List Char} :
    spelled? d word cs = some (written, rest) ↔
      cs = written ++ rest ∧ d.folded written = d.folded word := by
  induction word generalizing cs written with
  | nil =>
    rw [spelled?]
    constructor
    · intro h
      obtain ⟨rfl, rfl⟩ := Prod.mk.inj (Option.some.inj h)
      exact ⟨rfl, rfl⟩
    · rintro ⟨rfl, hfolded⟩
      have hlength := congrArg List.length hfolded
      rw [d.length_folded, d.length_folded] at hlength
      rw [List.length_eq_zero_iff.1 hlength]
      rfl
  | cons w word ih =>
    constructor
    · intro h
      cases cs with
      | nil => simp [spelled?] at h
      | cons c cs =>
        rw [spelled?] at h
        by_cases hsame : d.sameCharacter w c = true
        · rw [if_pos hsame] at h
          obtain ⟨⟨more, rest'⟩, hmore, hpair⟩ := Option.map_eq_some_iff.1 h
          obtain ⟨rfl, rfl⟩ := Prod.mk.inj hpair
          obtain ⟨rfl, hfolded⟩ := ih.1 hmore
          refine ⟨rfl, ?_⟩
          rw [d.folded_cons, d.folded_cons, (d.sameCharacter_iff w c).1 hsame, hfolded]
        · rw [if_neg hsame] at h
          simp at h
    · rintro ⟨rfl, hfolded⟩
      obtain ⟨c, more, rfl, hsame, hmore⟩ := Dialect.exists_cons_of_folded hfolded
      rw [List.cons_append, spelled?, if_pos hsame, ih.2 ⟨rfl, hmore⟩]
      rfl

theorem terminator?_isSome_iff {kind : TokenKind} {rest : List Char} :
    (terminator? kind rest).isSome ↔ kind.Ends rest := by
  unfold terminator? TokenKind.Ends
  by_cases hblock : kind.isBlock
  · rw [if_pos hblock, if_pos hblock]
    constructor
    · intro h
      split at h
      · rename_i more hdrop
        refine ⟨rest.takeWhile isSpaceOrTab, more, ?_, fun c hc => ?_⟩
        · rw [← hdrop, List.takeWhile_append_dropWhile]
        · exact (isSpaceOrTab_iff c).1 (List.mem_takeWhile_imp hc)
      · simp at h
    · rintro ⟨blanks, more, rfl, hblanks⟩
      have hdrop : (blanks ++ ':' :: more).dropWhile isSpaceOrTab = ':' :: more := by
        rw [List.dropWhile_append_of_pos fun c hc => (isSpaceOrTab_iff c).2 (hblanks c hc)]
        exact List.dropWhile_cons_of_neg (by decide)
      rw [hdrop]
      rfl
  · rw [if_neg hblock, if_neg hblock]
    cases rest with
    | nil => simp
    | cons c rest => simp [isSpaceOrTab_iff]

theorem keywordBy?_of_starts {d : Dialect} {line : List Char} {s : Spelling} (hne : s.text.toList ≠ [])
    (h : s.Starts d line) : ∃ terminator, terminator? s.kind (line.drop s.text.length) = some terminator ∧
      keywordBy? d line s = some (s.kind, line.take s.text.length, terminator) := by
  obtain ⟨written, rest, rfl, hfolded, hends⟩ := h
  have hlength : written.length = s.text.length := by
    have hlengths := congrArg List.length hfolded
    rwa [d.length_folded, d.length_folded, String.length_toList] at hlengths
  have hwritten : written.isEmpty = false := by
    cases written with
    | nil => exact absurd (List.length_eq_zero_iff.1 (String.length_toList ▸ hlength.symm)) hne
    | cons => rfl
  obtain ⟨terminator, hterminator⟩ := Option.isSome_iff_exists.1 (terminator?_isSome_iff.2 hends)
  rw [← hlength, List.take_left, List.drop_left]
  refine ⟨terminator, hterminator, ?_⟩
  unfold keywordBy?
  rw [spelled?_eq_some_iff.2 ⟨rfl, hfolded⟩]
  dsimp only
  rw [hwritten, hterminator]
  rfl

theorem keywordBy?_isSome_iff {d : Dialect} {line : List Char} {s : Spelling} :
    (keywordBy? d line s).isSome ↔ s.text.toList ≠ [] ∧ s.Starts d line := by
  constructor
  · intro h
    unfold keywordBy? at h
    split at h
    · rename_i written rest hspelled
      obtain ⟨hline, hfolded⟩ := spelled?_eq_some_iff.1 hspelled
      split at h
      · simp at h
      · rename_i hwritten
        rw [Option.isSome_map, terminator?_isSome_iff] at h
        refine ⟨fun hnil => hwritten ?_, written, rest, hline, hfolded, h⟩
        have hlength := congrArg List.length hfolded
        rw [hnil, d.length_folded, d.length_folded] at hlength
        exact List.isEmpty_iff.2 (List.length_eq_zero_iff.1 hlength)
    · simp at h
  · rintro ⟨hne, hstarts⟩
    obtain ⟨terminator, -, hfound⟩ := keywordBy?_of_starts hne hstarts
    rw [hfound]
    rfl

end Lexeme

/-! ## Blanks behind a line -/

theorem TokenKind.Ends.append {kind : TokenKind} {rest trail : List Char} (h : kind.Ends rest)
    (htrail : ∀ c ∈ trail, c = ' ' ∨ c = '\t') : kind.Ends (rest ++ trail) := by
  unfold Ends at h ⊢
  by_cases hblock : kind.isBlock
  · rw [if_pos hblock] at h ⊢
    obtain ⟨blanks, more, rfl, hblanks⟩ := h
    exact ⟨blanks, more ++ trail, by simp, hblanks⟩
  · rw [if_neg hblock] at h ⊢
    cases rest with
    | nil => exact fun c hc => htrail c (List.mem_of_head? hc)
    | cons c rest => exact h

/-- Blanks behind a line take no keyword away. -/
theorem Spelling.Starts.append {d : Dialect} {line trail : List Char} {s : Spelling} (h : s.Starts d line)
    (htrail : ∀ c ∈ trail, c = ' ' ∨ c = '\t') : s.Starts d (line ++ trail) := by
  obtain ⟨written, rest, rfl, hfolded, hends⟩ := h
  exact ⟨written, rest ++ trail, List.append_assoc _ _ _, hfolded, hends.append htrail⟩

end Gherkin
