import Gherkin.Proofs.Token.Position

/-!
# How tokens are laid out on lines

A keyword, a table row and a doc string are the first token of their line.  A keyword and free text are
followed by free text only, unless the line is one of tags, on which tags, free text and at last a
comment may follow each other.
-/

namespace Gherkin

/-- What a line holds so far: nothing, a keyword or free text, tags, or something no token follows. -/
inductive LineState where
  | start
  | words
  | tagged
  | ended
deriving DecidableEq, Repr

namespace TokenKind

def isKeyword (k : TokenKind) : Bool := k.isBlock || k.isStep

def isWhole : TokenKind → Bool
  | .comment | .tableRow | .docString => true
  | _ => false

end TokenKind

/-- The token `t` may come in the first state and leads to the second.  What free text at the start of a
line leads to is left to `opens`. -/
inductive LineState.Allows (opens : Token → LineState → Prop) : LineState → Token → LineState → Prop
  | lineEnd {s : LineState} {t : Token} (h : t.kind = .newline) : Allows opens s t .start
  | keyword {t : Token} (h : t.kind.isKeyword) : Allows opens .start t .words
  | whole {t : Token} (h : t.kind.isWhole) : Allows opens .start t .ended
  | tag {t : Token} (h : t.kind = .tag) : Allows opens .start t .tagged
  | opening {t : Token} {s : LineState} (h : t.kind.isInline) (hs : opens t s) : Allows opens .start t s
  | word {t : Token} (h : t.kind.isInline) : Allows opens .words t .words
  | moreTags {t : Token} (h : t.kind = .tag) : Allows opens .tagged t .tagged
  | taggedWord {t : Token} (h : t.kind.isInline) : Allows opens .tagged t .tagged
  | taggedComment {t : Token} (h : t.kind = .comment) : Allows opens .tagged t .ended

def Laid (opens : Token → LineState → Prop) : LineState → List Token → Prop
  | _, [] => True
  | s, t :: ts => ∃ s', s.Allows opens t s' ∧ Laid opens s' ts

/-! ## Kinds of lexemes -/

namespace Lexeme

theorem quoted_token (quote : Char) (cs : List Char) :
    ∃ kind w, (quoted quote cs).token = some (kind, w) ∧ kind.isInline := by
  unfold quoted
  split
  · exact ⟨_, _, rfl, rfl⟩
  · exact ⟨_, _, rfl, rfl⟩

/-- Free text is a token of its own kind. -/
theorem inline_token (afterBlank : Bool) (c : Char) (cs : List Char) :
    ∃ kind w, (inline afterBlank c cs).token = some (kind, w) ∧ kind.isInline := by
  unfold inline
  split
  · exact quoted_token c cs
  · split
    · split
      · exact ⟨_, _, rfl, rfl⟩
      · exact ⟨_, _, rfl, rfl⟩
    · exact ⟨_, _, rfl, rfl⟩

theorem keyword?_token {d : Dialect} {c : Char} {cs : List Char} {lx : Lexeme}
    (h : keyword? d c cs = some lx) :
    ∃ s ∈ d.spellings, ∃ w, lx.token = some (s.kind, w) := by
  unfold keyword? at h
  rcases Option.map_eq_some_iff.1 h with ⟨⟨kind, written, terminator⟩, hfound, rfl⟩
  rcases List.exists_of_findSome?_eq_some hfound with ⟨s, hs, hkeyword⟩
  refine ⟨s, Dialect.mem_precedence.1 hs, written, ?_⟩
  unfold keywordBy? at hkeyword
  split at hkeyword
  · split at hkeyword
    · simp at hkeyword
    · rcases Option.map_eq_some_iff.1 hkeyword with ⟨_, -, hparts⟩
      simp only [Prod.mk.injEq] at hparts
      simp [hparts]
  · simp at hkeyword

theorem tag_token (cs : List Char) :
    (∃ name, (tag cs).token = some (.tag, '@' :: name) ∧ name ≠ [] ∧ (∀ c ∈ name, isTagCharacter c) ∧
        (tag cs).fault = none) ∨
      ((tag cs).token = none ∧ (tag cs).fault = some .missingTagName) := by
  unfold tag
  dsimp only
  by_cases hname : (cs.takeWhile isTagCharacter).isEmpty
  · rw [if_pos hname]
    exact Or.inr ⟨rfl, rfl⟩
  · rw [if_neg hname]
    exact Or.inl ⟨_, rfl, by simpa using hname, fun c hc => List.mem_takeWhile_imp hc, rfl⟩

/-- The text of a line, without the blanks before it, when the line starts with free text. -/
def OpensProse (d : Dialect) : List Char → Prop
  | [] => False
  | c :: cs => ¬ Scan.isGap c ∧ Delimiter.opening? (c :: cs) = none ∧ c ≠ '#' ∧ c ≠ '@' ∧ c ≠ '|' ∧
      (Text.isAlphabetic c → keyword? d c cs = none)

theorem OpensProse.not_isGap {d : Dialect} {cs : List Char} (h : OpensProse d cs) :
    ∀ c ∈ cs.head?, ¬ Scan.isGap c := by
  cases cs with
  | nil => simp
  | cons c cs => simpa using h.1

theorem OpensProse.opening?_eq_none {d : Dialect} {cs : List Char} (h : OpensProse d cs) :
    Delimiter.opening? cs = none := by
  cases cs with
  | nil => rfl
  | cons c cs => exact h.2.1

end Lexeme

def Token.Opens (d : Dialect) (source : List Char) (t : Token) : Prop :=
  ∃ cs rest, t.location.At source (cs ++ rest) ∧ '\n' ∉ cs ∧ Text.AtLineEnd rest ∧
    Lexeme.OpensProse d cs

namespace Scan

/-- Free text at the start of a line makes the line one of free text.  Only after an `@` without a name,
which gives no token, is the line one of tags. -/
def opensAs (d : Dialect) (source : List Char) (nameless : Prop) (t : Token) (s : LineState) : Prop :=
  (s = .tagged ∧ nameless) ∨ (s = .words ∧ t.Opens d source)

end Scan

def Place.lineState : Place → LineState
  | .first => .start
  | .tags => .tagged
  | .inside => .words

theorem Place.next_ne_first (place : Place) (c : Char) : place.next c ≠ .first := by
  cases place with
  | first => by_cases hc : c = '@' <;> simp [Place.next, hc]
  | tags => simp [Place.next]
  | inside => simp [Place.next]

theorem Laid.start_of_tagged {d : Dialect} {source : List Char} {nameless : Prop} (h : nameless)
    {ts : List Token} (hts : Laid (Scan.opensAs d source nameless) .tagged ts) :
    Laid (Scan.opensAs d source nameless) .start ts := by
  cases ts with
  | nil => trivial
  | cons t ts =>
    rcases hts with ⟨s', hallows, hmore⟩
    refine ⟨s', ?_, hmore⟩
    cases hallows with
    | lineEnd hk => exact .lineEnd hk
    | moreTags hk => exact .tag hk
    | taggedWord hk => exact .opening hk (Or.inl ⟨rfl, h⟩)
    | taggedComment hk => exact .whole (by rw [hk]; rfl)

namespace Scan

theorem ofBody_of_dropWhile_eq_nil {d : Dialect} {place : Place} {afterBlank : Bool} {loc : Location}
    {body : List Char} (h : body.dropWhile isGap = []) : ofBody d place afterBlank loc body = [] := by
  rw [ofBody]
  split
  · rfl
  · rename_i hcons
    rw [h] at hcons
    simp at hcons

theorem ofBody_of_dropWhile_eq_cons {d : Dialect} {place : Place} {afterBlank : Bool} {loc : Location}
    {body cs : List Char} {c : Char} (h : body.dropWhile isGap = c :: cs) :
    ofBody d place afterBlank loc body =
      let gap := body.takeWhile isGap
      let lx := Lexeme.take d place (afterBlank || !gap.isEmpty) c cs
      ofLexeme (loc.past gap) lx ++
        ofBody d (place.next c) ((lx.span ++ lx.slack).getLast?.all Text.isBlank)
          ((loc.past gap).past (lx.span ++ lx.slack)) lx.rest := by
  rw [ofBody]
  split
  · rename_i hnil
    rw [h] at hnil
    simp at hnil
  · rename_i hcons
    rw [h] at hcons
    rcases List.cons.inj hcons with ⟨rfl, rfl⟩
    rfl

theorem ofBody_nil (d : Dialect) (place : Place) (afterBlank : Bool) (loc : Location) :
    ofBody d place afterBlank loc [] = [] := ofBody_of_dropWhile_eq_nil rfl

theorem tokens_ofLexeme (loc : Location) (lx : Lexeme) :
    (ofLexeme loc lx).filterMap Scanned.token? = (lx.token.map fun (kind, text) =>
      (⟨kind, String.ofList text, loc, (loc.past lx.span).offset, none⟩ : Token)).toList := by
  unfold ofLexeme
  cases lx.fault <;> cases lx.token <;> rfl

theorem errors_ofLexeme (loc : Location) (lx : Lexeme) :
    (ofLexeme loc lx).filterMap Scanned.error? =
      (lx.fault.map fun fault => (⟨fault, loc⟩ : LexicalError)).toList := by
  unfold ofLexeme
  cases lx.fault <;> cases lx.token <;> rfl

section
variable {d : Dialect} {source : List Char} {nameless : Prop}

theorem laid_inline {s s' : LineState} {afterBlank : Bool} {c : Char} {cs : List Char} {loc : Location}
    {more : List Token} (hmore : Laid (opensAs d source nameless) s' more)
    (hallows : ∀ t : Token, t.kind.isInline → t.location = loc →
      s.Allows (opensAs d source nameless) t s') :
    Laid (opensAs d source nameless) s
      ((ofLexeme loc (Lexeme.inline afterBlank c cs)).filterMap Scanned.token? ++ more) := by
  rcases Lexeme.inline_token afterBlank c cs with ⟨kind, w, htoken, hkind⟩
  rw [tokens_ofLexeme, htoken]
  exact ⟨s', hallows _ hkind rfl, hmore⟩

theorem laid_tag {s : LineState} (hs : s = .start ∨ s = .tagged) {cs : List Char} {loc : Location}
    {more : List Token} (hmore : Laid (opensAs d source nameless) .tagged more)
    (hnameless : (Lexeme.tag cs).fault = some .missingTagName → nameless) :
    Laid (opensAs d source nameless) s
      ((ofLexeme loc (Lexeme.tag cs)).filterMap Scanned.token? ++ more) := by
  rw [tokens_ofLexeme]
  rcases Lexeme.tag_token cs with ⟨name, htoken, -, -, -⟩ | ⟨htoken, hfault⟩
  · rw [htoken]
    refine ⟨.tagged, ?_, hmore⟩
    rcases hs with rfl | rfl
    · exact .tag rfl
    · exact .moreTags rfl
  · rw [htoken]
    rcases hs with rfl | rfl
    · exact Laid.start_of_tagged (hnameless hfault) hmore
    · exact hmore

/-- A lexeme leads from its place to the next one, or to the end of the line. -/
theorem laid_take (hd : ∀ s ∈ d.spellings, s.kind.isKeyword) {place : Place} {afterBlank : Bool}
    {c : Char} {cs rest : List Char} {loc : Location} {more : List Token}
    (hat : loc.At source (c :: cs ++ rest)) (hlf : '\n' ∉ c :: cs) (hrest : Text.AtLineEnd rest)
    (hgap : ¬ isGap c) (hfence : place = .first → Delimiter.opening? (c :: cs) = none)
    (hmore : Laid (opensAs d source nameless) (place.next c).lineState more)
    (hended : (Lexeme.take d place afterBlank c cs).rest = [] →
      Laid (opensAs d source nameless) .ended more)
    (hnameless : (Lexeme.take d place afterBlank c cs).fault = some .missingTagName → nameless) :
    Laid (opensAs d source nameless) place.lineState
      ((ofLexeme loc (Lexeme.take d place afterBlank c cs)).filterMap Scanned.token? ++ more) := by
  -- The place tells which rules are tried: all of them, only `@` and `#`, or none.
  cases place with
  | inside => exact laid_inline hmore fun t ht _ => .word ht
  | tags =>
    unfold Lexeme.take at hended hnameless ⊢
    dsimp only at hended hnameless ⊢
    by_cases hc : c = '@'
    · rw [if_pos hc] at hnameless ⊢
      exact laid_tag (Or.inr rfl) hmore hnameless
    · rw [if_neg hc] at hended ⊢
      by_cases hc' : c = '#'
      · rw [if_pos hc'] at hended ⊢
        rw [tokens_ofLexeme]
        exact ⟨.ended, .taggedComment rfl, hended rfl⟩
      · rw [if_neg hc']
        exact laid_inline hmore fun t ht _ => .taggedWord ht
  | first =>
    unfold Lexeme.take at hended hnameless ⊢
    dsimp only at hended hnameless ⊢
    by_cases hcomment : c = '#'
    · rw [if_pos hcomment] at hended ⊢
      rw [tokens_ofLexeme]
      exact ⟨.ended, .whole rfl, hended rfl⟩
    rw [if_neg hcomment] at hended hnameless ⊢
    by_cases htag : c = '@'
    · rw [if_pos htag] at hnameless ⊢
      refine laid_tag (Or.inl rfl) ?_ hnameless
      rwa [htag] at hmore
    rw [if_neg htag] at hended hnameless ⊢
    by_cases hrow : c = '|'
    · rw [if_pos hrow] at hended ⊢
      rw [tokens_ofLexeme]
      exact ⟨.ended, .whole rfl, hended rfl⟩
    rw [if_neg hrow]
    have hwords : Laid (opensAs d source nameless) .words more := by
      have hnext : Place.first.next c = .inside := if_neg htag
      rwa [hnext] at hmore
    -- Free text in front is what `opensAs` describes: every rule before it has been ruled out.
    have hopens : (Text.isAlphabetic c → Lexeme.keyword? d c cs = none) →
        Laid (opensAs d source nameless) .start
          ((ofLexeme loc (Lexeme.inline afterBlank c cs)).filterMap Scanned.token? ++ more) := by
      intro hkeyword
      refine laid_inline hwords fun t ht hloc => .opening ht (Or.inr ⟨rfl, c :: cs, rest, ?_⟩)
      rw [hloc]
      exact ⟨hat, hlf, hrest, hgap, hfence rfl, hcomment, htag, hrow, hkeyword⟩
    by_cases halpha : Text.isAlphabetic c
    · rw [if_pos halpha]
      cases hkeyword : Lexeme.keyword? d c cs with
      | none => exact hopens fun _ => hkeyword
      | some lx =>
        rcases Lexeme.keyword?_token hkeyword with ⟨spelling, hs, w, htoken⟩
        rw [Option.getD_some, tokens_ofLexeme, htoken]
        exact ⟨.words, .keyword (hd spelling hs), hwords⟩
    · rw [if_neg halpha]
      exact hopens fun h => absurd h halpha

theorem laid_ofBody (hd : ∀ s ∈ d.spellings, s.kind.isKeyword) {place : Place} {afterBlank : Bool}
    {loc : Location} {body rest : List Char} {ts : List Token} (hat : loc.At source (body ++ rest))
    (hbody : '\n' ∉ body) (hrest : Text.AtLineEnd rest)
    (hfence : place = .first → Delimiter.opening? (body.dropWhile isGap) = none)
    (hnameless : ∀ e ∈ (ofBody d place afterBlank loc body).filterMap Scanned.error?,
      e.fault = .missingTagName → nameless)
    (hts : ∀ s, Laid (opensAs d source nameless) s ts) :
    Laid (opensAs d source nameless) place.lineState
      ((ofBody d place afterBlank loc body).filterMap Scanned.token? ++ ts) := by
  fun_induction ofBody d place afterBlank loc body with
  | case1 => exact hts _
  | case2 place afterBlank loc body gap c cs hdrop loc' lx shorter ih =>
    have htakes : lx.Takes c cs := Lexeme.takes_take d place _ c cs
    have hcut : body = gap ++ (c :: cs) := by
      rw [← hdrop]
      exact List.takeWhile_append_dropWhile.symm
    have hat' : loc'.At source (c :: cs ++ rest) := by
      apply Location.At.past
      rwa [hcut, List.append_assoc] at hat
    have hlf : '\n' ∉ c :: cs := fun h => hbody (by rw [hcut]; exact List.mem_append_right _ h)
    have hgap : ¬ isGap c := by
      have hhead := List.head?_dropWhile_not isGap body
      rw [hdrop] at hhead
      simpa using hhead
    simp only [List.filterMap_append, List.mem_append, errors_ofLexeme] at hnameless
    rw [List.filterMap_append, List.append_assoc]
    refine laid_take hd hat' hlf hrest hgap (fun h => hdrop ▸ hfence h) (ih ?_ ?_ ?_ ?_) ?_ ?_
    · apply Location.At.past
      rwa [← List.append_assoc, htakes.append_rest]
    · intro h
      apply hlf
      rw [← htakes.append_rest]
      exact List.mem_append_right _ h
    · exact fun h => absurd h (Place.next_ne_first place c)
    · exact fun e he => hnameless e (Or.inr he)
    · intro hnil
      rw [show lx.rest = [] from hnil, ofBody_nil]
      exact hts _
    · intro hfault
      exact hnameless ⟨.missingTagName, loc'⟩ (Or.inl (by rw [hfault]; simp)) rfl

theorem laid_ofEnding {loc : Location} {ending : Text.LineEnd} {ts : List Token}
    (hts : Laid (opensAs d source nameless) .start ts) (hmissing : ending = .missing → ts = [])
    (s : LineState) :
    Laid (opensAs d source nameless) s ((ofEnding loc ending).filterMap Scanned.token? ++ ts) := by
  cases ending with
  | lf => exact ⟨.start, .lineEnd rfl, hts⟩
  | crlf => exact ⟨.start, .lineEnd rfl, hts⟩
  | missing =>
    rw [hmissing rfl]
    trivial

theorem opening?_of_fence?_eq_none {l : Text.Line} (h : fence? l = none) :
    Delimiter.opening? (l.body.dropWhile isGap) = none := by
  unfold fence? at h
  exact Option.map_eq_none_iff.1 h

/-- The step of a line leads from the start of the line to the start of the next one. -/
theorem laid_line (hd : ∀ s ∈ d.spellings, s.kind.isKeyword) {loc : Location} {afterBlank : Bool}
    {l : Text.Line} {ls : List Text.Line} {ts : List Token}
    (hat : loc.At source ((l :: ls).flatMap Text.Line.chars)) (hcut : Text.WellCut (l :: ls))
    (hnameless : ∀ e ∈ (line d loc afterBlank l ls).results.filterMap Scanned.error?,
      e.fault = .missingTagName → nameless)
    (hts : Laid (opensAs d source nameless) .start ts)
    (hlast : (line d loc afterBlank l ls).rest = [] → ts = []) :
    Laid (opensAs d source nameless) .start
      ((line d loc afterBlank l ls).results.filterMap Scanned.token? ++ ts) := by
  unfold line at hnameless hlast ⊢
  cases hfence : fence? l with
  | none =>
    rw [hfence] at hnameless hlast
    simp only [List.filterMap_append, List.append_assoc, List.mem_append] at hnameless ⊢
    rw [List.flatMap_cons, Text.Line.chars, List.append_assoc] at hat
    show Laid _ Place.first.lineState _
    refine laid_ofBody hd hat hcut.1 (Text.atLineEnd_of_wellCut hcut)
      (fun _ => opening?_of_fence?_eq_none hfence) (fun e he => hnameless e (Or.inl he)) ?_
    exact laid_ofEnding hts fun h => hlast (hcut.2.1 h)
  | some f =>
    rw [hfence] at hnameless hlast
    dsimp only at hnameless hlast ⊢
    split
    · rename_i inner closer rest hclosed
      rw [hclosed] at hlast
      -- A closed doc string ends with the line of its closing fence, which may be the last of the source.
      refine ⟨.ended, .whole rfl, laid_ofEnding hts (fun h => hlast ?_) _⟩
      have hls := eq_append_of_cut? hclosed
      have hcut' := hcut.2.2
      rw [hls] at hcut'
      exact (Text.wellCut_of_append hcut').2.1 h
    · rename_i hopen
      rw [hopen] at hlast
      exact ⟨.ended, .whole rfl, laid_ofEnding hts (fun h => hlast (hcut.2.1 h)) _⟩

theorem at_advance {loc : Location} {afterBlank : Bool} {l : Text.Line} {ls : List Text.Line}
    (hat : loc.At source ((l :: ls).flatMap Text.Line.chars)) :
    (advance loc l (line d loc afterBlank l ls).taken).At source
      ((line d loc afterBlank l ls).rest.flatMap Text.Line.chars) := by
  apply Location.At.past
  rwa [List.append_assoc, ← List.flatMap_append, line_taken_append_rest, ← List.flatMap_cons]

/-- The tokens of lines are laid out, and the end of the source follows them. -/
theorem exists_laid_lines (hd : ∀ s ∈ d.spellings, s.kind.isKeyword) {loc : Location}
    {afterBlank : Bool} {ls : List Text.Line} (hat : loc.At source (ls.flatMap Text.Line.chars))
    (hcut : Text.WellCut ls)
    (hnameless : ∀ e ∈ (lines d loc afterBlank ls).filterMap Scanned.error?,
      e.fault = .missingTagName → nameless) :
    ∃ ts finish, (lines d loc afterBlank ls).filterMap Scanned.token? = ts ++ [finish] ∧
      finish.kind = .eof ∧ Laid (opensAs d source nameless) .start ts ∧ (ls = [] → ts = []) := by
  fun_induction lines d loc afterBlank ls with
  | case1 loc afterBlank => exact ⟨[], _, rfl, rfl, trivial, fun _ => rfl⟩
  | case2 loc afterBlank l ls step fewer ih =>
    simp only [List.filterMap_append, List.mem_append] at hnameless
    have hrest : Text.WellCut step.rest := by
      have hls : step.taken ++ step.rest = ls := line_taken_append_rest d loc afterBlank l ls
      have hcut' := hcut.2.2
      rw [← hls] at hcut'
      exact Text.wellCut_of_append hcut'
    rcases ih (at_advance hat) hrest fun e he => hnameless e (Or.inr he) with
      ⟨ts, finish, htokens, hfinish, hlaid, hnil⟩
    refine ⟨step.results.filterMap Scanned.token? ++ ts, finish, ?_, hfinish, ?_, by simp⟩
    · rw [List.filterMap_append, htokens, List.append_assoc]
    · exact laid_line hd hat hcut (fun e he => hnameless e (Or.inl he)) hlaid hnil

end

end Scan

theorem Dialect.isKeyword_of_mem_english {s : Spelling} (h : s ∈ Dialect.english.spellings) :
    s.kind.isKeyword := by
  revert s
  decide

/-- The tokens of a source are laid out, and the end of the source follows them. -/
theorem exists_laid_tokens (source : String) : ∃ ts finish, tokens .english source = ts ++ [finish] ∧
    finish.kind = .eof ∧ Laid (Scan.opensAs .english source.toList
      (∃ e ∈ lexicalErrors .english source, e.fault = .missingTagName)) .start ts := by
  have hat := Location.at_opening source.toList
  rw [← Text.flatMap_chars_lines (Scan.opening source.toList).2.2] at hat
  have hnameless : ∀ e ∈ (Scan.all .english source).filterMap Scanned.error?,
      e.fault = .missingTagName → ∃ e ∈ lexicalErrors .english source, e.fault = .missingTagName :=
    fun e he h => ⟨e, he, h⟩
  rcases Scan.exists_laid_lines (fun _ => Dialect.isKeyword_of_mem_english) hat
    (Text.wellCut_lines _) hnameless with ⟨ts, finish, htokens, hfinish, hlaid, -⟩
  exact ⟨ts, finish, htokens, hfinish, hlaid⟩

end Gherkin
