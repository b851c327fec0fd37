import Gherkin.Document.Source
import Gherkin.Proofs.Document.Positions
import Gherkin.Proofs.Token.Origin

/-!
# What a reader skips

A reader leaves over a suffix of its tokens, which is laid out on lines as all tokens are.  So what is
skipped after a keyword is free text.
-/

namespace Gherkin

section
variable {opens : Token → LineState → Prop}

namespace LineState.Allows

theorem eq_start {s s' : LineState} {t : Token} (h : s.Allows opens t s') (ht : t.kind = .newline) :
    s' = .start := by
  cases h <;> simp_all [TokenKind.isKeyword, TokenKind.isWhole, TokenKind.isInline, TokenKind.isBlock,
    TokenKind.isStep]

theorem eq_ended {s s' : LineState} {t : Token} (h : s.Allows opens t s') (ht : t.kind = .comment) :
    s' = .ended := by
  cases h <;> simp_all [TokenKind.isKeyword, TokenKind.isInline, TokenKind.isBlock, TokenKind.isStep]

/-- Free text leads to more of it, unless it follows an `@` with or without a name. -/
theorem eq_words {d : Dialect} {source : List Char} {nameless : Prop} {s s' : LineState} {t : Token}
    (h : s.Allows (Scan.opensAs d source nameless) t s') (hnamed : ¬ nameless) (hs : s ≠ .tagged)
    (ht : t.kind.isInline) : s' = .words := by
  cases h with
  | opening _ hopens =>
    rcases hopens with ⟨-, hnameless⟩ | ⟨hwords, -⟩
    · exact absurd hnameless hnamed
    · exact hwords
  | word => rfl
  | taggedWord => exact absurd rfl hs
  | keyword hk | whole hk | lineEnd hk | tag hk | moreTags hk | taggedComment hk =>
    cases hkind : t.kind <;> simp_all [TokenKind.isInline, TokenKind.isWhole, TokenKind.isKeyword,
      TokenKind.isBlock, TokenKind.isStep]

/-- Free text that is neither among words nor among tags starts its line. -/
theorem opens_prose {d : Dialect} {source : List Char} {nameless : Prop} {s s' : LineState} {t : Token}
    (h : s.Allows (Scan.opensAs d source nameless) t s') (hnamed : ¬ nameless) (hs : s ≠ .tagged)
    (hwords : s ≠ .words) (ht : t.kind.isInline) : t.Opens d source := by
  cases h with
  | opening _ hopens =>
    rcases hopens with ⟨-, hnameless⟩ | ⟨-, hopens⟩
    · exact absurd hnameless hnamed
    · exact hopens
  | word => exact absurd rfl hwords
  | taggedWord => exact absurd rfl hs
  | keyword hk | whole hk | lineEnd hk | tag hk | moreTags hk | taggedComment hk =>
    cases hkind : t.kind <;> simp_all [TokenKind.isInline, TokenKind.isWhole, TokenKind.isKeyword,
      TokenKind.isBlock, TokenKind.isStep]

end LineState.Allows

def LaidOut (opens : Token → LineState → Prop) (ts : List Token) : Prop := ∃ s, Laid opens s ts

theorem LaidOut.of_suffix {ts rest : List Token} (h : LaidOut opens ts) (hrest : rest <:+ ts) :
    LaidOut opens rest := by
  rcases hrest with ⟨before, rfl⟩
  induction before with
  | nil => exact h
  | cons t before ih =>
    rcases h with ⟨s, s', -, hmore⟩
    exact ih ⟨s', hmore⟩

theorem LaidOut.words_of_keyword {t : Token} {ts : List Token} (h : LaidOut opens (t :: ts))
    (ht : t.kind.isKeyword) : Laid opens .words ts := by
  rcases h with ⟨s, s', hallows, hmore⟩
  cases hallows with
  | keyword => exact hmore
  | lineEnd hk => simp [hk, TokenKind.isKeyword, TokenKind.isBlock, TokenKind.isStep] at ht
  | whole hk => cases hkind : t.kind <;> simp [hkind, TokenKind.isKeyword, TokenKind.isWhole,
      TokenKind.isBlock, TokenKind.isStep] at hk ht
  | opening hk | word hk | taggedWord hk => cases hkind : t.kind <;> simp [hkind,
      TokenKind.isKeyword, TokenKind.isInline, TokenKind.isBlock, TokenKind.isStep] at hk ht
  | tag hk | moreTags hk | taggedComment hk =>
    simp [hk, TokenKind.isKeyword, TokenKind.isBlock, TokenKind.isStep] at ht

theorem Laid.ne_eof {s : LineState} {ts : List Token} (h : Laid opens s ts) :
    ∀ t ∈ ts, t.kind ≠ .eof := by
  induction ts generalizing s with
  | nil => simp
  | cons t ts ih =>
    rcases h with ⟨s', hallows, hmore⟩
    intro x hx heof
    rcases List.mem_cons.1 hx with rfl | hx
    · cases hallows <;> simp_all [TokenKind.isKeyword, TokenKind.isWhole, TokenKind.isInline,
        TokenKind.isBlock, TokenKind.isStep]
    · exact ih hmore x hx heof

/-- On a line of free text, what stands before the line end is free text. -/
theorem Laid.exists_words {ts : List Token} (h : Laid opens .words ts) :
    ∃ words, ts = words ++ Reader.skipLine ts ∧ ∀ w ∈ words, w.kind.isInline := by
  induction ts with
  | nil => exact ⟨[], rfl, by simp⟩
  | cons t ts ih =>
    rcases h with ⟨s', hallows, hmore⟩
    unfold Reader.skipLine
    cases hallows with
    | lineEnd hk => exact ⟨[], by simp [hk], by simp⟩
    | word hk =>
      rcases ih hmore with ⟨words, hwords, hinline⟩
      have hnewline : t.kind ≠ .newline := by
        intro hkind
        simp [hkind, TokenKind.isInline] at hk
      refine ⟨t :: words, ?_, by simpa using ⟨hk, hinline⟩⟩
      rw [List.dropWhile_cons_of_pos (by simpa using hnewline), List.cons_append]
      exact congrArg (t :: ·) hwords

/-- Skipping to the end of a line of free text leaves over the line end. -/
theorem Laid.skipLine {ts : List Token} (h : Laid opens .words ts) :
    Laid opens .words (Reader.skipLine ts) := by
  induction ts with
  | nil => exact h
  | cons t ts ih =>
    unfold Reader.skipLine
    by_cases hnewline : t.kind = .newline
    · rw [List.dropWhile_cons_of_neg (by simpa using hnewline)]
      exact h
    · rw [List.dropWhile_cons_of_pos (by simpa using hnewline)]
      rcases h with ⟨s', hallows, hmore⟩
      cases hallows with
      | lineEnd hk => exact absurd hk hnewline
      | word => exact ih hmore

end

namespace Reader

/-! ## The tokens of a source -/

/-- The tokens before the end of the source are laid out from the start of a line. -/
theorem laid_live (source : String) :
    ∃ finish, tokens .english source = live (tokens .english source) ++ [finish] ∧
      finish.kind = .eof ∧ Laid (Scan.opensAs .english source.toList
        (∃ e ∈ lexicalErrors .english source, e.fault = .missingTagName)) .start
        (live (tokens .english source)) := by
  rcases exists_laid_tokens source with ⟨ts, finish, htokens, hfinish, hlaid⟩
  have hlive : live (tokens .english source) = ts := by
    unfold live
    rw [htokens, List.takeWhile_append_of_pos (by simpa using hlaid.ne_eof)]
    simp [hfinish]
  rw [hlive]
  exact ⟨finish, htokens, hfinish, hlaid⟩

theorem mem_tokens_of_mem_live {source : String} {t : Token}
    (h : t ∈ live (tokens .english source)) : t ∈ tokens .english source :=
  (List.takeWhile_prefix _).subset h

/-! ## Tags and the header of the feature -/

theorem kind_of_mem_frontTags {t : Token} {ts : List Token} (h : t ∈ frontTags ts) : t.kind = .tag := by
  simpa using (List.mem_filter.1 h).2

theorem ne_feature_of_inTagRun {t : Token} (h : inTagRun t = true) : t.kind ≠ .block .feature := by
  intro hkind
  simp [inTagRun, isGap, hkind] at h

theorem header?_eq_none_iff {ts : List Token} :
    header? ts = none ↔ ∀ t ∈ ts, t.kind ≠ .block .feature := by
  fun_induction header? ts with
  | case1 ts hskip =>
    refine iff_of_true rfl fun t ht => ne_feature_of_inTagRun ?_
    exact List.dropWhile_eq_nil_iff.1 hskip t ht
  | case2 ts t more hskip shorter ht =>
    refine iff_of_false (by simp) fun hall => hall t ?_ ht
    exact (skipTags_suffix ts).subset (by rw [hskip]; exact List.mem_cons_self)
  | case3 ts t more hskip shorter ht ih =>
    rw [ih]
    have hts : ts = ts.takeWhile inTagRun ++ t :: more := by
      rw [← hskip]
      exact List.takeWhile_append_dropWhile.symm
    constructor
    · intro hmore x hx
      rw [hts] at hx
      rcases List.mem_append.1 hx with hx | hx
      · exact ne_feature_of_inTagRun (List.mem_takeWhile_imp hx)
      · rcases List.mem_cons.1 hx with rfl | hx
        · exact ht
        · exact hmore x hx
    · intro hall x hx
      exact hall x (by rw [hts]; exact List.mem_append_right _ (List.mem_cons_of_mem t hx))

theorem exists_header? {ts : List Token} (h : ∃ t ∈ ts, t.kind = .block .feature) :
    ∃ tags t more, header? ts = some (tags, t, more) := by
  cases hheader : header? ts with
  | none =>
    obtain ⟨t, ht, hk⟩ := h
    exact absurd hk (header?_eq_none_iff.1 hheader t ht)
  | some found => exact ⟨found.1, found.2.1, found.2.2, rfl⟩

theorem eq_append_of_header? {ts more : List Token} {tags : List String} {t : Token}
    (h : header? ts = some (tags, t, more)) :
    ∃ before, ts = before ++ t :: more ∧ t.kind = .block .feature ∧
      ∀ x ∈ before, x.kind ≠ .block .feature := by
  fun_induction header? ts with
  | case1 => simp at h
  | case2 ts u rest hskip shorter hu =>
    simp only [Option.some.injEq, Prod.mk.injEq] at h
    rcases h with ⟨-, rfl, rfl⟩
    refine ⟨ts.takeWhile inTagRun, ?_, hu, fun x hx => ?_⟩
    · rw [← hskip]
      exact List.takeWhile_append_dropWhile.symm
    · exact ne_feature_of_inTagRun (List.mem_takeWhile_imp hx)
  | case3 ts u rest hskip shorter hu ih =>
    rcases ih h with ⟨before, hrest, ht, hbefore⟩
    refine ⟨ts.takeWhile inTagRun ++ u :: before, ?_, ht, fun x hx => ?_⟩
    · rw [List.append_assoc, List.cons_append, ← hrest, ← hskip]
      exact List.takeWhile_append_dropWhile.symm
    · rcases List.mem_append.1 hx with hx | hx
      · exact ne_feature_of_inTagRun (List.mem_takeWhile_imp hx)
      · rcases List.mem_cons.1 hx with rfl | hx
        · exact hu
        · exact hbefore x hx

/-! ## The feature -/

/-- Reading the parts of a feature sets its background and adds children, and changes nothing else. -/
theorem exists_body_eq (source : List Char) (f : Feature) (ts : List Token) :
    ∃ background children, (body source f ts).1 =
      { f with background, children := f.children ++ children } := by
  fun_induction body source f ts with
  | case1 f ts => exact ⟨f.background, [], by simp⟩
  | case2 f ts run t more hskip _ _ _ read _ tagged misplaced f' g errors hbody ih =>
    rcases ih with ⟨b, cs, hg⟩
    rw [hbody] at hg
    refine ⟨b, cs, ?_⟩
    show g = _
    rw [show g = _ from hg]
    by_cases hmisplaced : misplaced.isEmpty <;> simp [f', hmisplaced]
  | case3 f ts run t more hskip _ _ _ read _ g errors hbody ih =>
    rcases ih with ⟨b, cs, hg⟩
    rw [hbody] at hg
    exact ⟨b, read.value :: cs, by simpa using hg⟩
  | case4 f ts run t more hskip _ _ _ read _ g errors hbody ih =>
    rcases ih with ⟨b, cs, hg⟩
    rw [hbody] at hg
    exact ⟨b, read.value :: cs, by simpa using hg⟩
  | case5 f ts t more hskip _ _ _ read _ g errors hbody ih =>
    rwa [hbody] at ih
  | case6 f ts run t more hskip _ _ g errors hbody _ _ _ _ fault ih =>
    rwa [hbody] at ih

end Reader

/-! ## The result of reading a source -/

/-- What is read of a source is what the readers take from its tokens. -/
theorem parse_eq (source : String) :
    let lexical := (lexicalErrors .english source).map ParseError.ofLexical
    parse source = ((Parsed.ofLive source (tokens .english source)).map fun parsed =>
      { parsed with errors := ParseError.inOrder (parsed.errors ++ lexical) }).mapError fun errors =>
        ParseError.inOrder (errors ++ lexical) := by
  unfold parse
  rw [Parsed.ofTokens_eq]
  cases Parsed.ofLive source (tokens .english source) <;> rfl

theorem parse_eq_error_iff {source : String} : (∃ errors, parse source = .error errors) ↔
    Reader.header? (Reader.live (tokens .english source)) = none := by
  rw [parse_eq]
  unfold Parsed.ofLive
  cases hheader : Reader.header? (Reader.live (tokens .english source)) with
  | none => simp [hheader, Except.map, Except.mapError]
  | some found => simp [hheader, Except.map, Except.mapError]

theorem exists_of_parse_eq_ok {source : String} {p : Parsed} (h : parse source = .ok p) :
    ∃ tags t more, Reader.header? (Reader.live (tokens .english source)) = some (tags, t, more) ∧
      (p.feature, p.errors) =
        let read := Reader.body source.toList
          { name := Reader.titleOf source.toList t
            description := Reader.headerDescription source.toList more
            tags
            background := none
            children := []
            location := t.location } (Reader.skipHeader source.toList more)
        (read.1, ParseError.inOrder (Reader.headerFault
          (Reader.finish source.toList (tokens .english source))
          (Reader.live (tokens .english source)) ++ read.2 ++
          (lexicalErrors .english source).map ParseError.ofLexical)) := by
  rw [parse_eq] at h
  unfold Parsed.ofLive at h
  cases hheader : Reader.header? (Reader.live (tokens .english source)) with
  | none => simp [hheader, Except.map, Except.mapError] at h
  | some found =>
    rcases found with ⟨tags, t, more⟩
    refine ⟨tags, t, more, rfl, ?_⟩
    simp only [hheader, Except.map, Except.mapError, Except.ok.injEq] at h
    rw [← h]

end Gherkin
