import Gherkin.Proofs.Token.Keyword

/-!
# The preferred spelling

Of the spellings that start a line the longest is meant, and of equally long ones the one that was listed
first.  Where no two kinds share a spelling, it does not matter in which order the spellings were listed.
-/

namespace Gherkin

/-- The spelling that is meant: no other that starts the line has more characters, and none that was listed
earlier has as many. -/
structure Dialect.Prefers (d : Dialect) (line : List Char) (s : Spelling) : Prop where
  starts : s.Starts d line
  longest : ∃ before after, d.spellings = before ++ s :: after ∧
    (∀ x ∈ before, x.Starts d line → x.text.length < s.text.length) ∧
    ∀ x ∈ after, x.Starts d line → x.text.length ≤ s.text.length

/-! ## Precedence -/

namespace Dialect

def Descending (ts : List Spelling) : Prop := ts.Pairwise fun a b => b.text.length ≤ a.text.length

theorem descending_place (s : Spelling) {ts : List Spelling} (h : Descending ts) :
    Descending (place s ts) := by
  induction ts with
  | nil => exact List.pairwise_singleton _ s
  | cons t ts ih =>
    obtain ⟨ht, hts⟩ := List.pairwise_cons.1 h
    unfold place
    by_cases hlength : t.text.length ≤ s.text.length
    · rw [if_pos hlength]
      refine List.pairwise_cons.2 ⟨fun x hx => ?_, h⟩
      rcases List.mem_cons.1 hx with rfl | hx
      · exact hlength
      · exact (ht x hx).trans hlength
    · rw [if_neg hlength]
      refine List.pairwise_cons.2 ⟨fun x hx => ?_, ih hts⟩
      rcases mem_place.1 hx with rfl | hx
      · omega
      · exact ht x hx

/-- The first that is found once `s` is placed: `s`, if it is as long as any that would be found, or the one
that is found without it, if that is longer. -/
theorem find?_place {p : Spelling → Bool} {s t : Spelling} {ts : List Spelling} (hts : Descending ts)
    (h : (place s ts).find? p = some t) :
    (t = s ∧ ∀ x ∈ ts, p x → x.text.length ≤ s.text.length) ∨
      (ts.find? p = some t ∧ (p s → s.text.length < t.text.length)) := by
  induction ts with
  | nil =>
    rw [place, List.find?_singleton] at h
    split at h
    · exact Or.inl ⟨(Option.some.inj h).symm, by simp⟩
    · simp at h
  | cons u ts ih =>
    obtain ⟨hu, hmore⟩ := List.pairwise_cons.1 hts
    unfold place at h
    by_cases hlength : u.text.length ≤ s.text.length
    · rw [if_pos hlength] at h
      by_cases hs : p s = true
      · rw [List.find?_cons_of_pos hs] at h
        refine Or.inl ⟨(Option.some.inj h).symm, fun x hx _ => ?_⟩
        rcases List.mem_cons.1 hx with rfl | hx
        · exact hlength
        · exact (hu x hx).trans hlength
      · rw [List.find?_cons_of_neg hs] at h
        exact Or.inr ⟨h, fun hs' => absurd hs' hs⟩
    · rw [if_neg hlength] at h
      by_cases hpu : p u = true
      · rw [List.find?_cons_of_pos hpu] at h ⊢
        rw [← Option.some.inj h]
        exact Or.inr ⟨rfl, fun _ => by omega⟩
      · rw [List.find?_cons_of_neg hpu] at h ⊢
        refine (ih hmore h).imp_left fun hplaced => ⟨hplaced.1, fun x hx hpx => ?_⟩
        rcases List.mem_cons.1 hx with rfl | hx
        · exact absurd hpx hpu
        · exact hplaced.2 x hx hpx

theorem descending_precedence (ss : List Spelling) : Descending (ss.foldr place []) := by
  induction ss with
  | nil => exact List.Pairwise.nil
  | cons s ss ih => exact descending_place s ih

/-- The first in the order of precedence is the longest, and the first listed of equally long ones. -/
theorem exists_of_find?_precedence {p : Spelling → Bool} {t : Spelling} {ss : List Spelling}
    (h : (ss.foldr place []).find? p = some t) : ∃ before after, ss = before ++ t :: after ∧
      (∀ x ∈ before, p x → x.text.length < t.text.length) ∧
      ∀ x ∈ after, p x → x.text.length ≤ t.text.length := by
  induction ss with
  | nil => simp at h
  | cons s ss ih =>
    rcases find?_place (descending_precedence ss) h with ⟨rfl, hothers⟩ | ⟨hfound, hlonger⟩
    · exact ⟨[], ss, rfl, by simp, fun x hx => hothers x ((mem_precedence (d := ⟨ss, true⟩)).2 hx)⟩
    · obtain ⟨before, after, rfl, hbefore, hafter⟩ := ih hfound
      refine ⟨s :: before, after, rfl, fun x hx hpx => ?_, hafter⟩
      rcases List.mem_cons.1 hx with rfl | hx
      · exact hlonger hpx
      · exact hbefore x hx hpx

/-- The keyword that is found at the front of a line is that of the preferred spelling. -/
theorem exists_prefers {d : Dialect} (hne : ∀ s ∈ d.spellings, s.text.toList ≠ []) {line : List Char}
    {found : TokenKind × List Char × List Char}
    (h : d.precedence.findSome? (Lexeme.keywordBy? d line) = some found) :
    ∃ s, d.Prefers line s ∧ s ∈ d.spellings ∧ Lexeme.keywordBy? d line s = some found := by
  obtain ⟨earlier, s, later, hprecedence, hs, hearlier⟩ := List.findSome?_eq_some_iff.1 h
  have hmem : s ∈ d.spellings := by
    apply mem_precedence.1
    rw [hprecedence]
    exact List.mem_append_right _ List.mem_cons_self
  have hfirst : d.precedence.find? (fun x => (Lexeme.keywordBy? d line x).isSome) = some s := by
    rw [List.find?_eq_some_iff_append]
    refine ⟨by rw [hs]; rfl, earlier, later, hprecedence, fun x hx => ?_⟩
    rw [hearlier x hx]
    rfl
  obtain ⟨before, after, hspellings, hbefore, hafter⟩ := exists_of_find?_precedence hfirst
  have hstarts : ∀ x ∈ d.spellings, x.Starts d line → (Lexeme.keywordBy? d line x).isSome = true :=
    fun x hx hx' => Lexeme.keywordBy?_isSome_iff.2 ⟨hne x hx, hx'⟩
  refine ⟨s, ⟨?_, before, after, hspellings, fun x hx hx' => ?_, fun x hx hx' => ?_⟩, hmem, hs⟩
  · exact (Lexeme.keywordBy?_isSome_iff.1 (Option.isSome_of_eq_some hs)).2
  · exact hbefore x hx (hstarts x (by rw [hspellings]; simp [hx]) hx')
  · exact hafter x hx (hstarts x (by rw [hspellings]; simp [hx]) hx')

theorem findSome?_precedence_eq_none_iff {d : Dialect} (hne : ∀ s ∈ d.spellings, s.text.toList ≠ [])
    {line : List Char} : d.precedence.findSome? (Lexeme.keywordBy? d line) = none ↔
      ∀ s ∈ d.spellings, ¬ s.Starts d line := by
  rw [List.findSome?_eq_none_iff]
  constructor
  · intro h s hs hstarts
    have hsome := Lexeme.keywordBy?_isSome_iff.2 ⟨hne s hs, hstarts⟩
    rw [h s (mem_precedence.2 hs)] at hsome
    simp at hsome
  · intro h s hs
    rw [← Option.not_isSome_iff_eq_none, Lexeme.keywordBy?_isSome_iff]
    exact fun hstarts => h s (mem_precedence.1 hs) hstarts.2

/-! ## Other orders -/

theorem Prefers.le {d : Dialect} {line : List Char} {s x : Spelling} (h : d.Prefers line s)
    (hx : x ∈ d.spellings) (hstarts : x.Starts d line) : x.text.length ≤ s.text.length := by
  obtain ⟨before, after, hspellings, hbefore, hafter⟩ := h.longest
  rw [hspellings] at hx
  rcases List.mem_append.1 hx with hx | hx
  · exact (hbefore x hx hstarts).le
  · rcases List.mem_cons.1 hx with rfl | hx
    · exact Nat.le_refl _
    · exact hafter x hx hstarts

/-- Spellings of one length that start one line are the same, up to case if the dialect ignores it. -/
theorem folded_eq_of_starts {d : Dialect} {line : List Char} {s t : Spelling} (hs : s.Starts d line)
    (ht : t.Starts d line) (hlength : s.text.length = t.text.length) :
    d.folded s.text.toList = d.folded t.text.toList := by
  obtain ⟨written, rest, hline, hfolded, -⟩ := hs
  obtain ⟨written', rest', hline', hfolded', -⟩ := ht
  have hlengths : written.length = written'.length := by
    rw [← d.length_folded written, ← d.length_folded written', hfolded, hfolded', d.length_folded,
      d.length_folded, String.length_toList, String.length_toList, hlength]
  rw [← hfolded, ← hfolded', (List.append_inj (hline.symm.trans hline') hlengths).1]

/-- No two kinds share a spelling, up to case if the dialect ignores it. -/
def Unambiguous (d : Dialect) : Prop :=
  ∀ s ∈ d.spellings, ∀ t ∈ d.spellings, d.folded s.text.toList = d.folded t.text.toList → s.kind = t.kind

/-- Dialects of the same spellings in any order find the same keyword, unless two kinds share a spelling. -/
theorem findSome?_eq_of_unambiguous {d d' : Dialect} (hcase : d'.caseSensitive = d.caseSensitive)
    (hmem : ∀ s, s ∈ d'.spellings ↔ s ∈ d.spellings) (hne : ∀ s ∈ d.spellings, s.text.toList ≠ [])
    (hd : d.Unambiguous) (line : List Char) :
    d'.precedence.findSome? (Lexeme.keywordBy? d' line) =
      d.precedence.findSome? (Lexeme.keywordBy? d line) := by
  have hne' : ∀ s ∈ d'.spellings, s.text.toList ≠ [] := fun s hs => hne s ((hmem s).1 hs)
  -- Whether a spelling starts the line does not depend on the other spellings.
  have hfolded : d'.folded = d.folded := by
    funext cs
    unfold folded
    rw [hcase]
  have hstarts : ∀ s : Spelling, s.Starts d' line ↔ s.Starts d line := by
    intro s
    unfold Spelling.Starts
    rw [hfolded]
  cases hfound : d.precedence.findSome? (Lexeme.keywordBy? d line) with
  | none =>
    rw [findSome?_precedence_eq_none_iff hne] at hfound
    rw [findSome?_precedence_eq_none_iff hne']
    intro s hs hs'
    exact hfound s ((hmem s).1 hs) ((hstarts s).1 hs')
  | some found =>
    obtain ⟨s, hs, hsmem, hsfound⟩ := exists_prefers hne hfound
    cases hfound' : d'.precedence.findSome? (Lexeme.keywordBy? d' line) with
    | none =>
      rw [findSome?_precedence_eq_none_iff hne'] at hfound'
      exact absurd ((hstarts s).2 hs.starts) (hfound' s ((hmem s).2 hsmem))
    | some found' =>
      obtain ⟨t, ht, htmem, htfound⟩ := exists_prefers hne' hfound'
      have htstarts := (hstarts t).1 ht.starts
      have hlength : s.text.length = t.text.length :=
        Nat.le_antisymm (ht.le ((hmem s).2 hsmem) ((hstarts s).2 hs.starts))
          (hs.le ((hmem t).1 htmem) htstarts)
      have hkind := hd s hsmem t ((hmem t).1 htmem) (folded_eq_of_starts hs.starts htstarts hlength)
      obtain ⟨terminator, hterminator, hsby⟩ := Lexeme.keywordBy?_of_starts (hne s hsmem) hs.starts
      obtain ⟨terminator', hterminator', htby⟩ := Lexeme.keywordBy?_of_starts (hne' t htmem) ht.starts
      rw [← hlength, ← hkind, hterminator] at hterminator'
      rw [hsby] at hsfound
      rw [htby, ← hlength, ← hkind, ← Option.some.inj hterminator'] at htfound
      exact htfound.symm.trans hsfound

end Dialect

end Gherkin
