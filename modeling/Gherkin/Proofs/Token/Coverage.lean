import Mathlib
import Gherkin.Proofs.Token.Tiling

/-!
# What tiling says of offsets

Tokens stand one behind the other in the source and cover spans of it, and what no token covers is the
mark before the first line, a blank, or an `@` that a fault is recorded for.
-/

namespace Gherkin

namespace Scan

/-- The character `c` at byte offset `n` belongs to the span of a token, or is one of those that need
not. -/
def Placed (ts : List Token) (es : List LexicalError) (n : Nat) (c : Char) : Prop :=
  (∃ t ∈ ts, t.location.offset ≤ n ∧ n < t.stop ∧ (c = '\n' → t.kind = .newline ∨ t.kind = .docString)) ∨
    (Text.isBlank c ∧ c ≠ '\n') ∨
    (c = '@' ∧ ∃ e ∈ es, e.fault = .missingTagName ∧ e.location.offset = n)

theorem Placed.mono {ts ts' : List Token} {es es' : List LexicalError} {n : Nat} {c : Char}
    (hts : ts ⊆ ts') (hes : es ⊆ es') (h : Placed ts es n c) : Placed ts' es' n c := by
  refine h.imp ?_ (Or.imp_right (And.imp_right ?_))
  · rintro ⟨t, ht, hplace⟩
    exact ⟨t, hts ht, hplace⟩
  · rintro ⟨e, he, hplace⟩
    exact ⟨e, hes he, hplace⟩

/-! ## One piece and the rest -/

section
variable (fault : Option LexicalFault) (loc : Location) (t : Token) (xs : List Scanned)

theorem tokens_piece :
    ((fault.map fun fault => Scanned.error ⟨fault, loc⟩).toList ++ .token t :: xs).filterMap
      Scanned.token? = t :: xs.filterMap Scanned.token? := by
  cases fault <;> rfl

theorem errors_piece :
    ((fault.map fun fault => Scanned.error ⟨fault, loc⟩).toList ++ .token t :: xs).filterMap
      Scanned.error? = (fault.map fun fault => ⟨fault, loc⟩).toList ++ xs.filterMap Scanned.error? := by
  cases fault <;> rfl

end

/-- A character of two texts in a row is one of the first or of the second. -/
theorem append_eq_append_cons {as bs before after : List Char} {c : Char}
    (h : as ++ bs = before ++ c :: after) :
    (∃ mid, as = before ++ c :: mid) ∨ ∃ between, before = as ++ between ∧ bs = between ++ c :: after := by
  rcases List.append_eq_append_iff.1 h with ⟨between, rfl, rfl⟩ | ⟨mid, rfl, hmid⟩
  · exact Or.inr ⟨between, rfl, rfl⟩
  · cases mid with
    | nil => exact Or.inr ⟨[], by simp, hmid.symm⟩
    | cons b mid =>
      obtain ⟨rfl, -⟩ := List.cons.inj hmid
      exact Or.inl ⟨mid, rfl⟩

namespace Tiles

variable {n : Nat} {cs : List Char} {xs : List Scanned}

theorem exists_covers (h : Tiles n cs xs) {t : Token} (ht : t ∈ xs.filterMap Scanned.token?) :
    ∃ before span after, cs = before ++ span ++ after ∧ t.Covers (n + Text.byteLength before) span ∧
      span ++ after ≠ [] := by
  induction h with
  | nil => simp at ht
  | @blank n c cs xs _ _ _ ih =>
    rcases ih ht with ⟨before, span, after, rfl, hcovers, hne⟩
    refine ⟨c :: before, span, after, rfl, ?_, hne⟩
    rwa [Text.byteLength_cons, ← Nat.add_assoc]
  | @nameless n loc cs xs _ _ ih =>
    rcases ih ht with ⟨before, span, after, rfl, hcovers, hne⟩
    refine ⟨'@' :: before, span, after, rfl, ?_, hne⟩
    rwa [Text.byteLength_cons, ← Nat.add_assoc]
  | @token n u span slack cs xs fault hu _ htakes _ ih =>
    rw [tokens_piece] at ht
    rcases List.mem_cons.1 ht with rfl | ht
    · refine ⟨[], span, slack ++ cs, by simp, hu, fun hnil => htakes ?_⟩
      rw [← List.append_assoc] at hnil
      exact (List.append_eq_nil_iff.1 hnil).1
    · rcases ih ht with ⟨before, span', after, rfl, hcovers, hne⟩
      refine ⟨span ++ slack ++ before, span', after, by simp, ?_, hne⟩
      rwa [Text.byteLength_append _ before, ← Nat.add_assoc]

/-- A token starts inside the text and stops there at the latest. -/
theorem offset_bounds (h : Tiles n cs xs) {t : Token} (ht : t ∈ xs.filterMap Scanned.token?) :
    n ≤ t.location.offset ∧ t.location.offset < n + Text.byteLength cs ∧
      t.stop ≤ n + Text.byteLength cs := by
  rcases h.exists_covers ht with ⟨before, span, after, rfl, hcovers, hne⟩
  have hpos := byteLength_pos hne
  rw [Text.byteLength_append] at hpos
  rw [hcovers.offset, hcovers.stop, Text.byteLength_append, Text.byteLength_append]
  omega

theorem pairwise_tokens (h : Tiles n cs xs) : (xs.filterMap Scanned.token?).Pairwise fun t u =>
    t.location.offset < u.location.offset ∧ t.stop ≤ u.location.offset := by
  induction h with
  | nil => exact .nil
  | blank _ _ _ ih => exact ih
  | nameless _ _ ih => exact ih
  | @token n t span slack cs xs fault ht _ htakes hmore ih =>
    rw [tokens_piece]
    refine .cons (fun u hu => ?_) ih
    -- The span may be empty, but then slack follows it, and the next token starts behind that.
    have hpos := byteLength_pos htakes
    have hnext := (hmore.offset_bounds hu).1
    rw [ht.offset, ht.stop]
    rw [Text.byteLength_append] at hpos hnext
    omega

theorem le_offset_of_mem_errors (h : Tiles n cs xs) {e : LexicalError}
    (he : e ∈ xs.filterMap Scanned.error?) : n ≤ e.location.offset := by
  induction h with
  | nil => simp at he
  | blank _ _ _ ih => exact Nat.le_trans (Nat.le_add_right _ _) (ih he)
  | nameless hloc _ ih =>
    rcases List.mem_cons.1 he with rfl | he
    · exact Nat.le_of_eq hloc.symm
    · exact Nat.le_trans (Nat.le_add_right _ _) (ih he)
  | token fault ht _ _ _ ih =>
    rw [errors_piece] at he
    rcases List.mem_append.1 he with he | he
    · rcases Option.map_eq_some_iff.1 (Option.mem_toList.1 he) with ⟨_, -, rfl⟩
      exact Nat.le_of_eq ht.offset.symm
    · exact Nat.le_trans (Nat.le_add_right _ _) (ih he)

theorem offset_lt_of_mem_errors (h : Tiles n cs xs) {e : LexicalError}
    (he : e ∈ xs.filterMap Scanned.error?) : e.location.offset < n + Text.byteLength cs := by
  induction h with
  | nil => simp at he
  | blank _ _ _ ih =>
    have hnext := ih he
    rwa [Text.byteLength_cons, ← Nat.add_assoc]
  | nameless hloc _ ih =>
    rcases List.mem_cons.1 he with rfl | he
    · have hpos := Char.utf8Size_pos '@'
      rw [Text.byteLength_cons]
      dsimp only
      omega
    · have hnext := ih he
      rwa [Text.byteLength_cons, ← Nat.add_assoc]
  | token fault ht _ htakes _ ih =>
    rw [errors_piece] at he
    rw [Text.byteLength_append, ← Nat.add_assoc]
    rcases List.mem_append.1 he with he | he
    · obtain ⟨_, -, rfl⟩ := Option.map_eq_some_iff.1 (Option.mem_toList.1 he)
      have hpos := byteLength_pos htakes
      dsimp only
      rw [ht.offset]
      omega
    · exact ih he

theorem pairwise_errors (h : Tiles n cs xs) :
    (xs.filterMap Scanned.error?).Pairwise fun e f => e.location.offset < f.location.offset := by
  induction h with
  | nil => exact .nil
  | blank _ _ _ ih => exact ih
  | nameless hloc hmore ih =>
    refine .cons (fun f hf => ?_) ih
    have hnext := hmore.le_offset_of_mem_errors hf
    have hpos := Char.utf8Size_pos '@'
    dsimp only
    omega
  | token fault ht _ htakes hmore ih =>
    rw [errors_piece]
    cases fault with
    | none => exact ih
    | some fault =>
      refine .cons (fun f hf => ?_) ih
      have hnext := hmore.le_offset_of_mem_errors hf
      have hpos := byteLength_pos htakes
      dsimp only
      rw [ht.offset]
      omega

theorem placed (h : Tiles n cs xs) {before after : List Char} {c : Char} (hcs : cs = before ++ c :: after) :
    Placed (xs.filterMap Scanned.token?) (xs.filterMap Scanned.error?) (n + Text.byteLength before) c := by
  induction h generalizing before with
  | nil => simp at hcs
  | blank hc hlf _ ih =>
    cases before with
    | nil =>
      obtain ⟨rfl, -⟩ := List.cons.inj hcs
      exact Or.inr (Or.inl ⟨hc, hlf⟩)
    | cons b before =>
      obtain ⟨rfl, htail⟩ := List.cons.inj hcs
      rw [Text.byteLength_cons, ← Nat.add_assoc]
      exact ih htail
  | nameless hloc _ ih =>
    cases before with
    | nil =>
      obtain ⟨rfl, -⟩ := List.cons.inj hcs
      exact Or.inr (Or.inr ⟨rfl, _, List.mem_cons_self, rfl, hloc⟩)
    | cons b before =>
      obtain ⟨rfl, htail⟩ := List.cons.inj hcs
      rw [Text.byteLength_cons, ← Nat.add_assoc]
      exact (ih htail).mono (List.Subset.refl _) (List.subset_cons_self _ _)
  | @token n t span slack cs xs fault ht hslack _ _ ih =>
    rw [tokens_piece, errors_piece]
    -- The character is in the span of the token, in what was trimmed behind it, or further on.
    rcases append_eq_append_cons hcs with ⟨mid, hpiece⟩ | ⟨between, rfl, hmore⟩
    · rcases append_eq_append_cons hpiece with ⟨mid, rfl⟩ | ⟨between, rfl, rfl⟩
      · refine Or.inl ⟨t, List.mem_cons_self, ?_, ?_, fun hc => ht.lineFeed (by simp [hc])⟩
        · rw [ht.offset]
          exact Nat.le_add_right _ _
        · have hpos := c.utf8Size_pos
          rw [ht.stop, Text.byteLength_append, Text.byteLength_cons]
          omega
      · exact Or.inr (Or.inl (hslack c (by simp)))
    · rw [Text.byteLength_append _ between, ← Nat.add_assoc]
      exact (ih hmore).mono (List.subset_cons_self _ _) (List.subset_append_right _ _)

end Tiles

/-! ## The whole source -/

theorem exists_tiles_all {d : Dialect} (hd : ∀ s ∈ d.spellings, s.kind.isKeyword) (source : String) :
    ∃ mark cs xs finish, (mark = [] ∨ mark = [byteOrderMark]) ∧ source.toList = mark ++ cs ∧
      all d source = xs ++ [.token ⟨.eof, "", finish, finish.offset, none⟩] ∧
      finish.offset = Text.byteLength source.toList ∧ Tiles (Text.byteLength mark) cs xs := by
  rcases Location.opening_eq_append source.toList with ⟨mark, hmark, hsource, hoffset⟩
  rcases exists_tiles_lines hd (opening source.toList).1 (opening source.toList).2.1
    (Text.wellCut_lines (opening source.toList).2.2) with ⟨xs, finish, hall, hfinish, htiles⟩
  rw [Text.flatMap_chars_lines] at hfinish htiles
  rw [hoffset] at hfinish htiles
  refine ⟨mark, _, xs, finish, hmark, hsource, hall, ?_, htiles⟩
  rw [hfinish, ← Text.byteLength_append, ← hsource]

end Scan

/-- The tokens of a source stand in it one behind the other, each as its span tells, with the end of the
source as the last; they leave out nothing but blanks, the mark before the first line, and any `@` that a
fault is recorded for. -/
theorem tokens_tile_source {d : Dialect} (hd : d.Offered) (source : String) :
    (∃ ts finish, tokens d source = ts ++ [finish] ∧ finish.kind = .eof ∧
      finish.location.offset = Text.byteLength source.toList ∧ ∀ t ∈ ts, t.kind ≠ .eof) ∧
    (tokens d source).Pairwise (fun t u =>
      t.location.offset < u.location.offset ∧ t.stop ≤ u.location.offset) ∧
    (∀ t ∈ tokens d source, ∃ before span after, source.toList = before ++ span ++ after ∧
      t.location.offset = Text.byteLength before ∧ t.stop = Text.byteLength (before ++ span) ∧
      t.Decodes span) ∧
    (∀ before c after, source.toList = before ++ c :: after →
      (∃ t ∈ tokens d source, t.location.offset ≤ Text.byteLength before ∧
        Text.byteLength before < t.stop ∧ (c = '\n' → t.kind = .newline ∨ t.kind = .docString)) ∨
      (c = Scan.byteOrderMark ∧ before = []) ∨ (Text.isBlank c ∧ c ≠ '\n') ∨
      (c = '@' ∧ ∃ e ∈ lexicalErrors d source, e.fault = .missingTagName ∧
        e.location.offset = Text.byteLength before)) ∧
    (lexicalErrors d source).Pairwise fun e f => e.location.offset < f.location.offset := by
  rcases Scan.exists_tiles_all hd.isKeyword source with
    ⟨mark, cs, xs, finish, hmark, hsource, hall, hfinish, htiles⟩
  -- The tiles cover what follows the mark, so all offsets are counted from behind it.
  have hlength : Text.byteLength source.toList = Text.byteLength mark + Text.byteLength cs := by
    rw [hsource, Text.byteLength_append]
  have htokens : tokens d source =
      xs.filterMap Scanned.token? ++ [⟨.eof, "", finish, finish.offset, none⟩] := by
    rw [tokens, hall, List.filterMap_append]
    rfl
  have herrors : lexicalErrors d source = xs.filterMap Scanned.error? := by
    rw [lexicalErrors, hall, List.filterMap_append]
    exact List.append_nil _
  rw [htokens, herrors]
  refine ⟨⟨_, _, rfl, rfl, hfinish, fun t ht => ?_⟩, ?_, fun t ht => ?_, fun before c after hc => ?_,
    htiles.pairwise_errors⟩
  · rcases htiles.exists_covers ht with ⟨_, _, _, _, hcovers, _⟩
    exact hcovers.not_eof
  · refine List.pairwise_append.2 ⟨htiles.pairwise_tokens, List.pairwise_singleton _ _, fun t ht u hu => ?_⟩
    rw [List.mem_singleton.1 hu]
    dsimp only
    rw [hfinish, hlength]
    exact (htiles.offset_bounds ht).2
  · rcases List.mem_append.1 ht with ht | ht
    · rcases htiles.exists_covers ht with ⟨before, span, after, rfl, hcovers, -⟩
      refine ⟨mark ++ before, span, after, by rw [hsource]; simp, ?_, ?_, hcovers.decodes⟩
      · rw [hcovers.offset, Text.byteLength_append]
      · rw [hcovers.stop, Text.byteLength_append, Text.byteLength_append]
    · rw [List.mem_singleton.1 ht]
      refine ⟨source.toList, [], [], by simp, hfinish, ?_, rfl, rfl⟩
      rw [List.append_nil]
      exact hfinish
  · rw [hsource] at hc
    rcases Scan.append_eq_append_cons hc with ⟨mid, hmid⟩ | ⟨between, rfl, hbetween⟩
    · -- The character stands before the first line, so it is the mark.
      rcases hmark with rfl | rfl
      · simp at hmid
      · rcases List.append_eq_cons_iff.1 hmid.symm with ⟨rfl, hcons⟩ | ⟨_, -, hnil⟩
        · exact Or.inr (Or.inl ⟨(List.cons.inj hcons).1, rfl⟩)
        · simp at hnil
    · rw [Text.byteLength_append]
      rcases htiles.placed hbetween with ⟨t, ht, hplace⟩ | hblank | hnameless
      · exact Or.inl ⟨t, List.mem_append_left _ ht, hplace⟩
      · exact Or.inr (Or.inr (Or.inl hblank))
      · exact Or.inr (Or.inr (Or.inr hnameless))

set_option maxRecDepth 4096 in
/-- A source with a byte order mark, an escape, a text of which all is trimmed, and an `@` without a name. -/
theorem tokens_tile_source_of_trimmed_text : ∃ (d : Dialect) (source : String), d.Offered ∧
    (tokens d source).map (fun t => (t.kind, t.text, t.location.offset, t.stop)) =
      [(.step .given, "soit", 3, 7), (.text, "é", 8, 10), (.placeholder, "n", 10, 13),
        (.quotedString, "q'", 14, 19), (.text, "", 19, 19), (.newline, "\n", 21, 22), (.text, "x", 24, 25),
        (.eof, "", 25, 25)] ∧
    (lexicalErrors d source).map (fun e => (e.fault, e.location.offset)) = [(.missingTagName, 22)] ∧
    (tokens d source).Pairwise (fun t u =>
      t.location.offset < u.location.offset ∧ t.stop ≤ u.location.offset) ∧
    ∀ t ∈ tokens d source, ∃ before span after, source.toList = before ++ span ++ after ∧
      t.location.offset = Text.byteLength before ∧ t.stop = Text.byteLength (before ++ span) ∧
      t.Decodes span := by
  let d : Dialect := (Dialect.english.withSpelling (.step .given) "Soit").caseInsensitive
  let source : String := "\uFEFFsoit é<n> 'q\\''\u00A0\n@ x"
  have hd : d.Offered := .caseInsensitive (.withSpelling .english _ _)
  rcases tokens_tile_source hd source with ⟨-, horder, hspans, -, -⟩
  exact ⟨d, source, hd, by cbv, by cbv, horder, hspans⟩

end Gherkin
