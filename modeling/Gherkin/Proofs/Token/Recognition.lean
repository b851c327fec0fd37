import Gherkin.Proofs.Printing.Scanning
import Gherkin.Proofs.Token.CommentLines
import Gherkin.Proofs.Token.Coordinates
import Gherkin.Proofs.Token.Precedence

/-!
# Keywords in a source

A line that starts with a letter yields a keyword exactly if a spelling starts it, and then that of the
preferred spelling.  The order in which spellings were listed decides only between equally long ones of
different kinds.
-/

namespace Gherkin

/-! ## Dialects by their spellings -/

namespace Dialect

/-- The English dialect with more spellings, listed one after the other, and keywords of either case. -/
def built (added : List Spelling) (insensitive : Bool) : Dialect :=
  let d := added.foldl (fun d s => d.withSpelling s.kind s.text) english
  if insensitive then d.caseInsensitive else d

/-- A spelling that is listed when it is added: that of a keyword, and not blank. -/
def IsSpelling (s : Spelling) : Prop := s.kind.isKeyword ∧ Text.trim s.text.toList ≠ []

theorem mem_withSpelling {d : Dialect} {s t : Spelling} : s ∈ (d.withSpelling t.kind t.text).spellings ↔
    s ∈ d.spellings ∨ s = t ∧ IsSpelling t := by
  have hadds : ((t.kind.isBlock || t.kind.isStep) && !(Text.trim t.text.toList).isEmpty) = true ↔
      IsSpelling t := by
    simp [IsSpelling, TokenKind.isKeyword]
  unfold withSpelling
  by_cases hspelling : IsSpelling t
  · rw [hadds.2 hspelling, Bool.true_and]
    by_cases hlisted : t ∈ d.spellings
    · rw [if_neg (by simpa using hlisted)]
      refine ⟨Or.inl, fun h => h.elim id ?_⟩
      rintro ⟨rfl, -⟩
      exact hlisted
    · rw [if_pos (by simpa using hlisted)]
      simp [hspelling]
  · rw [if_neg fun h => hspelling (hadds.1 (Bool.and_eq_true_iff.1 h).1)]
    simp [hspelling]

theorem mem_foldl_withSpelling {d : Dialect} {s : Spelling} {added : List Spelling} :
    s ∈ (added.foldl (fun d s => d.withSpelling s.kind s.text) d).spellings ↔
      s ∈ d.spellings ∨ s ∈ added ∧ IsSpelling s := by
  induction added generalizing d with
  | nil => simp
  | cons t added ih =>
    rw [List.foldl_cons, ih, mem_withSpelling, List.mem_cons, or_assoc, or_and_right]
    refine or_congr_right (or_congr_left ?_)
    constructor
    · rintro ⟨rfl, ht⟩
      exact ⟨rfl, ht⟩
    · rintro ⟨rfl, ht⟩
      exact ⟨rfl, ht⟩

theorem mem_built {s : Spelling} {added : List Spelling} {insensitive : Bool} :
    s ∈ (built added insensitive).spellings ↔ s ∈ english.spellings ∨ s ∈ added ∧ IsSpelling s := by
  unfold built
  cases insensitive <;> exact mem_foldl_withSpelling

theorem Offered.exists_built {d : Dialect} (h : d.Offered) : ∃ added insensitive, d = built added insensitive := by
  induction h with
  | english => exact ⟨[], false, rfl⟩
  | @withSpelling d _ kind text ih =>
    obtain ⟨added, insensitive, rfl⟩ := ih
    refine ⟨added ++ [⟨kind, text⟩], insensitive, ?_⟩
    unfold built
    rw [List.foldl_append]
    cases insensitive with
    | false => rfl
    | true =>
      -- Whether case counts has no part in listing a spelling.
      show Dialect.withSpelling (Dialect.caseInsensitive _) kind text =
        Dialect.caseInsensitive (Dialect.withSpelling _ kind text)
      unfold Dialect.withSpelling Dialect.caseInsensitive
      split <;> rfl
  | @caseInsensitive d _ ih =>
    obtain ⟨added, insensitive, rfl⟩ := ih
    refine ⟨added, true, ?_⟩
    cases insensitive <;> rfl

/-- What every added spelling keeps holds after all of them. -/
theorem foldl_withSpelling {P : Dialect → Prop} {d : Dialect} (hd : P d)
    (hadd : ∀ d kind text, P d → P (d.withSpelling kind text)) (added : List Spelling) :
    P (added.foldl (fun d s => d.withSpelling s.kind s.text) d) := by
  apply List.foldlRecOn (motive := P) _ _ hd
  intro e he s _
  exact hadd e s.kind s.text he

theorem offered_built (added : List Spelling) (insensitive : Bool) : (built added insensitive).Offered := by
  have hoffered := foldl_withSpelling Offered.english (fun _ kind text h => h.withSpelling kind text) added
  unfold built
  cases insensitive with
  | false => exact hoffered
  | true => exact hoffered.caseInsensitive

theorem caseSensitive_built (added : List Spelling) (insensitive : Bool) :
    (built added insensitive).caseSensitive = !insensitive := by
  unfold built
  cases insensitive with
  | false =>
    refine foldl_withSpelling (P := fun d => d.caseSensitive = true) rfl (fun d kind text h => ?_) added
    unfold withSpelling
    split
    · exact h
    · exact h
  | true => rfl

theorem isSpelling_of_mem_english : ∀ s ∈ english.spellings, IsSpelling s := by
  have hblank : (english.spellings.all fun s => !(Text.trim s.text.toList).isEmpty) = true := by decide
  intro s hs
  exact ⟨isKeyword_of_mem_english hs, by simpa using List.all_eq_true.1 hblank s hs⟩

end Dialect

theorem Dialect.Offered.isSpelling {d : Dialect} (h : d.Offered) : ∀ s ∈ d.spellings, Dialect.IsSpelling s := by
  obtain ⟨added, insensitive, rfl⟩ := h.exists_built
  intro s hs
  rcases Dialect.mem_built.1 hs with hs | ⟨-, hs⟩
  · exact Dialect.isSpelling_of_mem_english s hs
  · exact hs

theorem Dialect.IsSpelling.text_ne_nil {s : Spelling} (h : Dialect.IsSpelling s) : s.text.toList ≠ [] := by
  intro hnil
  apply h.2
  rw [hnil]
  rfl

/-! ## The same scan under other dialects -/

namespace Scan

variable {d d' : Dialect}

/-- A dialect counts only by the keywords that it finds. -/
theorem ofBody_congr (h : ∀ c cs, Lexeme.keyword? d' c cs = Lexeme.keyword? d c cs) (place : Place)
    (afterBlank : Bool) (loc : Location) (body : List Char) :
    ofBody d' place afterBlank loc body = ofBody d place afterBlank loc body := by
  have htake : ∀ place afterBlank c cs,
      Lexeme.take d' place afterBlank c cs = Lexeme.take d place afterBlank c cs := by
    intro place afterBlank c cs
    unfold Lexeme.take
    rw [h]
  fun_induction ofBody d place afterBlank loc body with
  | case1 place afterBlank loc body hdrop => rw [ofBody_of_dropWhile_eq_nil hdrop]
  | case2 place afterBlank loc body gap c cs hdrop loc' lx shorter ih =>
    rw [ofBody_of_dropWhile_eq_cons hdrop]
    dsimp only
    rw [htake]
    exact congrArg _ ih

theorem all_congr (h : ∀ c cs, Lexeme.keyword? d' c cs = Lexeme.keyword? d c cs) (source : String) :
    all d' source = all d source := by
  have hline : ∀ loc afterBlank l ls, line d' loc afterBlank l ls = line d loc afterBlank l ls := by
    intro loc afterBlank l ls
    unfold line
    rw [ofBody_congr h]
  have hlines : ∀ loc afterBlank ls, lines d' loc afterBlank ls = lines d loc afterBlank ls := by
    intro loc afterBlank ls
    fun_induction lines d loc afterBlank ls with
    | case1 => rw [lines]
    | case2 loc afterBlank l ls step fewer ih =>
      rw [lines, hline]
      exact congrArg _ ih
  exact hlines _ _ _

/-! ## The first token of a line -/

def Yields : Option (TokenKind × List Char × List Char) → Token → Prop
  | some (kind, written, _), t => t.kind = kind ∧ t.text = String.ofList written
  | none, t => t.kind.isInline

/-- In a source of `before`, `indent`, `line` and `after` a line starts behind `before`, not inside of a doc
string.  Blanks come first and a letter starts `line`, which carriage returns and the line end follow. -/
structure IsWordLine (d : Dialect) (before indent line after : List Char) : Prop where
  starts : StartsLine before (indent ++ (line ++ after))
  gaps : ∀ c ∈ indent, isGap c
  letter : ∃ c ∈ line.head?, Text.isAlphabetic c
  single : '\n' ∉ line
  last : line.getLast? ≠ some '\r'
  ends : ∃ returns rest, after = returns ++ rest ∧ (∀ c ∈ returns, c = '\r') ∧
    (rest = [] ∨ rest.head? = some '\n')
  outside : ∀ t ∈ tokens d (String.ofList (before ++ (indent ++ (line ++ after)))),
    ¬ t.Encloses (Text.byteLength before)

/-- The characters up to a line feed are the body of the first line, and perhaps a carriage return. -/
theorem exists_takeWhile_eq {cs : List Char} {l : Text.Line} {ls : List Text.Line}
    (h : Text.lines cs = l :: ls) :
    ∃ r, (r = [] ∨ r = ['\r']) ∧ cs.takeWhile (· ≠ '\n') = l.body ++ r := by
  have hcut := Text.wellCut_lines cs
  have hcs := Text.flatMap_chars_lines cs
  rw [h] at hcut hcs
  rw [List.flatMap_cons, Text.Line.chars, List.append_assoc] at hcs
  have hbody : ∀ c ∈ l.body, decide (c ≠ '\n') = true := by
    intro c hc
    exact decide_eq_true fun heq => hcut.1 (heq ▸ hc)
  rw [← hcs, List.takeWhile_append_of_pos hbody]
  rcases Text.atLineEnd_of_wellCut hcut with hend | ⟨rest, hend | hend⟩
  · exact ⟨[], Or.inl rfl, by rw [hend]; rfl⟩
  · exact ⟨[], Or.inl rfl, by rw [hend]; rfl⟩
  · exact ⟨['\r'], Or.inr rfl, by rw [hend]; rfl⟩

section
variable {before indent line after : List Char}

/-- The first line of what stands behind `before` holds `line`, but for carriage returns at its end. -/
theorem IsWordLine.exists_lines (h : IsWordLine d before indent line after) : ∃ l ls returns,
    Text.lines (indent ++ (line ++ after)) = l :: ls ∧ l.body = indent ++ (line ++ returns) ∧
      ∀ c ∈ returns, c = '\r' := by
  obtain ⟨returns, rest, rfl, hreturns, hrest⟩ := h.ends
  obtain ⟨c, hc, -⟩ := h.letter
  have hline : line ≠ [] := by
    rintro rfl
    simp at hc
  obtain ⟨l, ls, hlines⟩ : ∃ l ls, Text.lines (indent ++ (line ++ (returns ++ rest))) = l :: ls := by
    apply List.exists_cons_of_ne_nil
    rw [Ne, Text.lines_eq_nil_iff]
    simp [hline]
  -- The word holds no line feed, so it is on the first line as a whole.
  have htake : (indent ++ (line ++ (returns ++ rest))).takeWhile (· ≠ '\n') =
      indent ++ (line ++ returns) := by
    have hone : ∀ c ∈ indent ++ (line ++ returns), decide (c ≠ '\n') = true := by
      intro c hc
      apply decide_eq_true
      rintro rfl
      rcases List.mem_append.1 hc with hc | hc
      · exact absurd (h.gaps '\n' hc) (by decide)
      rcases List.mem_append.1 hc with hc | hc
      · exact h.single hc
      · exact absurd (hreturns '\n' hc) (by decide)
    rw [← List.append_assoc line, ← List.append_assoc indent, List.takeWhile_append_of_pos hone]
    rcases hrest with rfl | hrest
    · simp
    · obtain ⟨more, rfl⟩ := List.head?_eq_some_iff.1 hrest
      simp
  obtain ⟨r, rfl | rfl, hr⟩ := exists_takeWhile_eq hlines
  · exact ⟨l, ls, returns, hlines, by rw [← htake, hr, List.append_nil], hreturns⟩
  · -- The carriage return is the last of `returns`.
    rcases List.eq_nil_or_concat returns with rfl | ⟨front, c, rfl⟩
    · rw [htake, List.append_nil] at hr
      have hlast := congrArg List.getLast? hr
      rw [List.getLast?_append_of_ne_nil _ hline, List.getLast?_concat] at hlast
      exact absurd hlast h.last
    · rw [htake, List.concat_eq_append, ← List.append_assoc, ← List.append_assoc] at hr
      refine ⟨l, ls, front, hlines, ?_, fun x hx => hreturns x (by simp [hx])⟩
      rw [← (List.append_inj' hr rfl).1, List.append_assoc]

/-- The first token of a line that starts with a letter is the keyword that is found there, or free text. -/
theorem exists_first_token {afterBlank : Bool} {loc : Location} {gap cs : List Char} {c : Char}
    (hgap : ∀ g ∈ gap, isGap g) (hc : Text.isAlphabetic c) :
    ∃ t words, (ofBody d .first afterBlank loc (gap ++ c :: cs)).filterMap Scanned.token? = t :: words ∧
      t.location = loc.past gap ∧ Yields
        (d.precedence.findSome? (Lexeme.keywordBy? d (Text.dropEndWhile (· = '\r') (c :: cs)))) t := by
  rw [ofBody_append_cons hgap (not_isGap_of_isAlphabetic hc), Lexeme.take_first_of_isAlphabetic d _ hc]
  dsimp only
  rw [List.filterMap_append, tokens_ofLexeme]
  unfold Lexeme.keyword?
  dsimp only
  cases d.precedence.findSome? (Lexeme.keywordBy? d (Text.dropEndWhile (· = '\r') (c :: cs))) with
  | some found => exact ⟨_, _, rfl, rfl, rfl, rfl⟩
  | none =>
    obtain ⟨kind, written, htoken, hkind⟩ := Lexeme.inline_token (afterBlank || !gap.isEmpty) c cs
    rw [Option.map_none, Option.getD_none, htoken]
    exact ⟨_, _, rfl, rfl, hkind⟩

/-- Neither a blank nor a letter is a quote. -/
theorem IsWordLine.head?_ne (h : IsWordLine d before indent line after) :
    (indent ++ (line ++ after)).head? ≠ some '\'' := by
  cases indent with
  | nil =>
    obtain ⟨c, hc, halpha⟩ := h.letter
    obtain ⟨cs, rfl⟩ : ∃ cs, line = c :: cs := List.head?_eq_some_iff.1 hc
    rintro heq
    rw [Option.some.inj heq] at halpha
    exact absurd halpha (by decide)
  | cons g indent =>
    have hg := h.gaps g List.mem_cons_self
    rintro heq
    rw [Option.some.inj heq] at hg
    exact absurd hg (by decide)

/-- All tokens but the last stand before the end of their source. -/
theorem offset_lt_of_all_eq (hd : d.Offered) {source : String} {xs : List Scanned}
    (h : all d source = xs ++ [.token ⟨.eof, "", Location.start.behind source.toList,
      (Location.start.behind source.toList).offset, none⟩]) :
    ∀ u ∈ xs.filterMap Scanned.token?, u.location.offset < Text.byteLength source.toList := by
  intro u hu
  have hpairwise := pairwise_offset_tokens hd.isKeyword source
  rw [tokens_of_all_eq h, List.pairwise_append] at hpairwise
  have hlt := hpairwise.2.2 u hu _ (List.mem_singleton_self _)
  simpa [Location.behind, Location.moved, Location.start] using hlt

/-- The tokens of a source at a line that starts with a letter. -/
theorem IsWordLine.exists_tokens (h : IsWordLine d before indent line after) (hd : d.Offered) :
    ∃ earlier t later,
      tokens d (String.ofList (before ++ (indent ++ (line ++ after)))) = earlier ++ t :: later ∧
      (∀ u ∈ earlier, u.location.offset < Text.byteLength before) ∧
      t.location.offset = Text.byteLength (before ++ indent) ∧
      Yields (d.precedence.findSome? (Lexeme.keywordBy? d line)) t := by
  obtain ⟨l, ls, returns, hlines, hbody, hreturns⟩ := h.exists_lines
  obtain ⟨c, hc, halpha⟩ := h.letter
  obtain ⟨cs, rfl⟩ : ∃ cs, line = c :: cs := List.head?_eq_some_iff.1 hc
  have hsource : String.ofList (before ++ (indent ++ (c :: cs ++ after))) =
      String.ofList before ++ String.ofList (indent ++ (c :: cs ++ after)) := String.ofList_append
  obtain ⟨xs, hbefore, -, hall, -⟩ := @exists_all_around d (String.ofList before)
    (String.ofList (indent ++ (c :: cs ++ after))) (by simpa using h.starts)
    (by rw [← hsource]; simpa using h.outside) fun _ => by simpa using h.head?_ne
  rw [String.toList_ofList, String.toList_ofList, hlines, lines] at hall
  -- What stands before the line are the tokens of `before`, of which the last is its end.
  have hearlier := offset_lt_of_all_eq hd hbefore
  rw [String.toList_ofList] at hearlier
  have hword : l.body = indent ++ c :: (cs ++ returns) := by rw [hbody]; rfl
  have hfence := fence?_eq_none_of_isAlphabetic hword h.gaps halpha
  obtain ⟨t, words, htokens, hlocation, hfound⟩ := @exists_first_token d true
    (Location.start.behind before) indent (cs ++ returns) c h.gaps halpha
  have hreturn : Text.dropEndWhile (· = '\r') (c :: (cs ++ returns)) = c :: cs := by
    rw [← List.cons_append, Text.dropEndWhile_append_of_forall _ (by simpa using hreturns),
      Text.dropEndWhile_of_getLast?_ne h.last]
  rw [hreturn] at hfound
  have hline : (line d (Location.start.behind before) true l ls).results.filterMap Scanned.token? =
      t :: (words ++ (ofEnding ((Location.start.behind before).past l.body) l.ending).filterMap
        Scanned.token?) := by
    rw [line, hfence]
    dsimp only
    rw [List.filterMap_append, ← List.cons_append, ← htokens, hword]
  obtain ⟨later, hlater⟩ : ∃ later, tokens d (String.ofList (before ++ (indent ++ (c :: cs ++ after)))) =
      xs.filterMap Scanned.token? ++ t :: later := by
    rw [tokens, hsource, hall, List.filterMap_append, List.filterMap_append, hline, List.cons_append]
    exact ⟨_, rfl⟩
  refine ⟨xs.filterMap Scanned.token?, t, later, hlater, hearlier, ?_, hfound⟩
  rw [hlocation, Location.offset_past, Text.byteLength_append]
  simp [Location.behind, Location.moved, Location.start]

end

end Scan

/-- What is found at the front of a line that starts with a letter is the keyword of the preferred spelling. -/
theorem Dialect.Offered.preferred {d : Dialect} (hd : d.Offered) {line : List Char} {t : Token}
    (h : Scan.Yields (d.precedence.findSome? (Lexeme.keywordBy? d line)) t) :
    (t.kind.isKeyword ↔ ∃ s ∈ d.spellings, s.Starts d line) ∧
      (t.kind.isKeyword → ∃ s, d.Prefers line s ∧ t.kind = s.kind ∧
        t.text = String.ofList (line.take s.text.length)) := by
  have hne : ∀ s ∈ d.spellings, s.text.toList ≠ [] := fun s hs => (hd.isSpelling s hs).text_ne_nil
  cases hfound : d.precedence.findSome? (Lexeme.keywordBy? d line) with
  | some found =>
    obtain ⟨s, hs, hmem, hby⟩ := Dialect.exists_prefers hne hfound
    obtain ⟨terminator, -, hby'⟩ := Lexeme.keywordBy?_of_starts (hne s hmem) hs.starts
    rw [hfound, Option.some.inj (hby.symm.trans hby')] at h
    have hkeyword : t.kind.isKeyword = true := by
      rw [h.1]
      exact (hd.isSpelling s hmem).1
    exact ⟨⟨fun _ => ⟨s, hmem, hs.starts⟩, fun _ => hkeyword⟩, fun _ => ⟨s, hs, h⟩⟩
  | none =>
    rw [hfound] at h
    have hkeyword : ¬ t.kind.isKeyword = true := by
      have hinline : t.kind.isInline = true := h
      cases hkind : t.kind <;> simp [hkind, TokenKind.isInline, TokenKind.isKeyword, TokenKind.isBlock,
        TokenKind.isStep] at hinline ⊢
    refine ⟨⟨fun hk => absurd hk hkeyword, ?_⟩, fun hk => absurd hk hkeyword⟩
    rintro ⟨s, hs, hstarts⟩
    exact absurd hstarts ((Dialect.findSome?_precedence_eq_none_iff hne).1 hfound s hs)

/-- Adding spellings in another order gives the same scan, unless two kinds share a spelling. -/
theorem Dialect.all_built_perm {added added' : List Spelling} (h : added.Perm added') {insensitive : Bool}
    (hd : (built added insensitive).Unambiguous) (source : String) :
    Scan.all (built added' insensitive) source = Scan.all (built added insensitive) source := by
  have hmem : ∀ s, s ∈ (built added' insensitive).spellings ↔ s ∈ (built added insensitive).spellings := by
    intro s
    rw [mem_built, mem_built, h.mem_iff]
  have hne : ∀ s ∈ (built added insensitive).spellings, s.text.toList ≠ [] := by
    intro s hs
    rcases mem_built.1 hs with hs | ⟨-, hs⟩
    · exact (isSpelling_of_mem_english s hs).text_ne_nil
    · exact hs.text_ne_nil
  have hcase : (built added' insensitive).caseSensitive = (built added insensitive).caseSensitive := by
    rw [caseSensitive_built, caseSensitive_built]
  apply Scan.all_congr
  intro c cs
  unfold Lexeme.keyword?
  dsimp only
  rw [findSome?_eq_of_unambiguous hcase hmem hne hd]

/-- The first token of a line that starts with a letter is a keyword exactly if a spelling starts the line.
It is then the keyword of the longest such spelling, the first listed of equally long ones, as the source
writes it.  If no two kinds share a spelling, no token depends on the order in which spellings are added. -/
theorem keyword_of_longest_spelling :
    (∀ d : Dialect, d.Offered → ∀ before indent line after : List Char,
      Scan.IsWordLine d before indent line after → ∃ earlier t later,
        tokens d (String.ofList (before ++ (indent ++ (line ++ after)))) = earlier ++ t :: later ∧
        (∀ u ∈ earlier, u.location.offset < Text.byteLength before) ∧
        t.location.offset = Text.byteLength (before ++ indent) ∧
        (t.kind.isKeyword ↔ ∃ s ∈ d.spellings, s.Starts d line) ∧
        (t.kind.isKeyword → ∃ s, d.Prefers line s ∧ t.kind = s.kind ∧
          t.text = String.ofList (line.take s.text.length))) ∧
    ∀ (added added' : List Spelling) (insensitive : Bool), added.Perm added' →
      (Dialect.built added insensitive).Unambiguous → ∀ source,
        tokens (Dialect.built added' insensitive) source = tokens (Dialect.built added insensitive) source ∧
        lexicalErrors (Dialect.built added' insensitive) source =
          lexicalErrors (Dialect.built added insensitive) source := by
  constructor
  · intro d hd before indent line after hline
    obtain ⟨earlier, t, later, htokens, hearlier, hoffset, hfound⟩ := hline.exists_tokens hd
    exact ⟨earlier, t, later, htokens, hearlier, hoffset, hd.preferred hfound⟩
  · intro added added' insensitive hperm hd source
    unfold tokens lexicalErrors
    rw [Dialect.all_built_perm hperm hd source]
    exact ⟨rfl, rfl⟩

set_option maxRecDepth 16000 in
/-- A spelling of a step begins one of a block, which the line writes in another case and ends with blanks
and a colon. -/
theorem keyword_of_longest_spelling_of_overlap : ∃ (added : List Spelling) (line after : List Char),
    let d := Dialect.built added true
    let source := String.ofList (['x', '\n'] ++ ([' ', '\t'] ++ (line ++ after)))
    added.map Spelling.text = ["Given the", "given the case", " ", "given"] ∧
      String.ofList line = "GIVEN the Case\t:" ∧
      (∃ t ∈ tokens d source, t.location.offset = 4 ∧ ∃ s, d.Prefers line s ∧ t.kind = s.kind) ∧
      tokens (Dialect.built added.reverse true) source = tokens d source := by
  let added : List Spelling := [⟨.step .given, "Given the"⟩, ⟨.block .scenario, "given the case"⟩,
    ⟨.step .and, " "⟩, ⟨.step .given, "given"⟩]
  let d := Dialect.built added true
  let line := ['G', 'I', 'V', 'E', 'N', ' ', 't', 'h', 'e', ' ', 'C', 'a', 's', 'e', '\t', ':']
  have hd : d.Offered := Dialect.offered_built added true
  have hkinds : (tokens d (String.ofList (['x', '\n'] ++ ([' ', '\t'] ++ (line ++ ['\r', '\n']))))).map
      Token.kind = [.text, .newline, .block .scenario, .newline, .eof] := by cbv
  have hline : Scan.IsWordLine d ['x', '\n'] [' ', '\t'] line ['\r', '\n'] := by
    refine ⟨Or.inr (Or.inr rfl), by simp [Scan.isGap], ⟨'G', rfl, by decide⟩, by decide, by decide,
      ⟨['\r'], ['\n'], rfl, by simp, Or.inr rfl⟩, fun t ht hencloses => ?_⟩
    have hmem := List.mem_map_of_mem (f := Token.kind) ht
    rw [hkinds, hencloses.docString] at hmem
    revert hmem
    decide
  have hstarts : (⟨.block .scenario, "given the case"⟩ : Spelling).Starts d line :=
    ⟨line.take 14, ['\t', ':'], rfl, by decide +kernel, ['\t'], [], rfl, by simp⟩
  have hunambiguous : d.Unambiguous := by
    unfold Dialect.Unambiguous
    decide +kernel
  obtain ⟨hfirst, hperm⟩ := keyword_of_longest_spelling
  obtain ⟨earlier, t, later, htokens, -, hoffset, hiff, hkeyword⟩ := hfirst d hd _ _ _ _ hline
  obtain ⟨s, hs, hkind, -⟩ := hkeyword (hiff.2 ⟨_, by decide +kernel, hstarts⟩)
  have hmem : t ∈ tokens d (String.ofList (['x', '\n'] ++ ([' ', '\t'] ++ (line ++ ['\r', '\n'])))) := by
    rw [htokens]
    exact List.mem_append_right _ List.mem_cons_self
  have hreverse : added.Perm added.reverse := (List.reverse_perm added).symm
  exact ⟨added, line, ['\r', '\n'], rfl, by decide +kernel, ⟨t, hmem, hoffset, s, hs, hkind⟩,
    (hperm added added.reverse true hreverse hunambiguous _).1⟩

end Gherkin
