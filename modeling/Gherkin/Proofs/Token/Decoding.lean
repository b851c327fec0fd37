import Gherkin.Proofs.Token.Keyword
import Gherkin.Proofs.Token.Layout

/-!
# What a token says of its span

The text of a token is what the characters of its span stand for: the span of a tag is the tag, the span
of a quoted string is its content between quotes and with the escapes that the content needs, and so on
for each kind.
-/

namespace Gherkin

/-! ## Dialects -/

/-- The dialects that can be put together: the English one, more spellings, and keywords of either case. -/
inductive Dialect.Offered : Dialect → Prop
  | english : Offered .english
  | withSpelling {d : Dialect} (h : Offered d) (kind : TokenKind) (text : String) :
      Offered (d.withSpelling kind text)
  | caseInsensitive {d : Dialect} (h : Offered d) : Offered d.caseInsensitive

theorem Dialect.Offered.isKeyword {d : Dialect} (h : d.Offered) : ∀ s ∈ d.spellings, s.kind.isKeyword := by
  induction h with
  | english => exact fun _ => Dialect.isKeyword_of_mem_english
  | @withSpelling d _ kind text ih =>
    unfold Dialect.withSpelling
    split
    · rename_i hadds
      intro s hs
      rcases List.mem_append.1 hs with hs | hs
      · exact ih s hs
      · rw [List.mem_singleton.1 hs]
        exact (Bool.and_eq_true_iff.1 (Bool.and_eq_true_iff.1 hadds).1).1
    · exact ih
  | caseInsensitive _ ih => exact ih

/-! ## Decoding -/

/-- Between two quotes `written` stands for `content`: a backslash gives the character after it, whichever
that is, and no quote stands without one. -/
inductive Unescapes (quote : Char) : List Char → List Char → Prop
  | nil : Unescapes quote [] []
  | escaped (c : Char) {written content : List Char} (h : Unescapes quote written content) :
      Unescapes quote ('\\' :: c :: written) (c :: content)
  | plain {c : Char} (hslash : c ≠ '\\') (hquote : c ≠ quote) {written content : List Char}
      (h : Unescapes quote written content) : Unescapes quote (c :: written) (c :: content)

def Token.Decodes (t : Token) (span : List Char) : Prop :=
  match t.kind with
  | .block _ => ∃ blanks, (∀ c ∈ blanks, Lexeme.isSpaceOrTab c) ∧ span = t.text.toList ++ blanks ++ [':']
  | .step _ | .tag => span = t.text.toList
  | .comment => ∃ cs, span = '#' :: cs ∧ t.text.toList = Text.trim cs
  | .tableRow => t.text.toList = Text.trimEnd span
  | .docString => ∃ (delimiter : Delimiter) (note : List Char) (tail : List Char),
      span = delimiter.chars ++ note ++ tail ∧ '\n' ∉ note ∧
      ((tail = [] ∧ t.text = "") ∨ ∃ (ending : Text.LineEnd) (inner : List Text.Line) (closer : List Char),
        tail = ending.chars ++ inner.flatMap Text.Line.chars ++ closer ∧ delimiter.closes closer ∧
        (∀ l ∈ inner, ¬ delimiter.closes l.body) ∧
        t.text.toList = delimiter.content (t.location.column - 1) inner)
  | .text => ∃ blanks, (∀ c ∈ blanks, Text.isBlank c) ∧ span = t.text.toList ++ blanks
  | .quotedString => ∃ quote written, (quote = '"' ∨ quote = '\'') ∧ span = quote :: (written ++ [quote]) ∧
      Unescapes quote written t.text.toList
  | .placeholder => span = '<' :: (t.text.toList ++ ['>'])
  | .newline => t.text = "\n" ∧ (span = ['\n'] ∨ span = ['\r', '\n'])
  | .eof => t.text = "" ∧ span = []

namespace Lexeme

/-- A lexeme accounts for all that it takes: a token's span and blanks after it, or an `@` without a name. -/
inductive Accounted : Lexeme → Prop
  | token {kind : TokenKind} {text span slack rest : List Char} {fault : Option LexicalFault}
      (hkind : kind ≠ .eof) (hslack : ∀ c ∈ slack, Text.isBlank c)
      (hdecodes : ∀ loc stop, Token.Decodes ⟨kind, String.ofList text, loc, stop, none⟩ span) :
      Accounted ⟨some (kind, text), fault, span, slack, rest⟩
  | nameless {rest : List Char} : Accounted ⟨none, some .missingTagName, [], ['@'], rest⟩

theorem accounted_comment (cs : List Char) : (comment cs).Accounted :=
  .token (by simp) (by simp) fun _ _ => ⟨cs, rfl, String.toList_ofList⟩

theorem accounted_tableRow (cs : List Char) : (tableRow cs).Accounted :=
  .token (by simp) (by simp) fun _ _ => String.toList_ofList

theorem accounted_tag (cs : List Char) : (tag cs).Accounted := by
  unfold tag
  dsimp only
  by_cases hname : (cs.takeWhile isTagCharacter).isEmpty
  · rw [if_pos hname]
    exact .nameless
  · rw [if_neg hname]
    exact .token (by simp) (by simp) fun _ _ => String.toList_ofList.symm

/-! ## Keywords -/

/-- The terminator of a block's keyword is a colon, perhaps after blanks, and a step's keyword has none. -/
theorem terminator?_prefix {kind : TokenKind} {cs terminator : List Char}
    (h : terminator? kind cs = some terminator) : terminator <+: cs ∧
      if kind.isBlock then ∃ blanks, (∀ c ∈ blanks, isSpaceOrTab c) ∧ terminator = blanks ++ [':']
      else terminator = [] := by
  unfold terminator? at h
  by_cases hblock : kind.isBlock
  · rw [if_pos hblock] at h ⊢
    split at h
    · rename_i rest hcolon
      obtain rfl := Option.some.inj h
      refine ⟨⟨rest, ?_⟩, _, fun c hc => List.mem_takeWhile_imp hc, rfl⟩
      rw [List.append_assoc, List.singleton_append, ← hcolon, List.takeWhile_append_dropWhile]
    · simp at h
  · rw [if_neg hblock] at h ⊢
    split at h
    · obtain rfl := Option.some.inj h
      exact ⟨List.nil_prefix, rfl⟩
    · simp at h

theorem keywordBy?_prefix {d : Dialect} {line : List Char} {s : Spelling} {kind : TokenKind}
    {written terminator : List Char} (h : keywordBy? d line s = some (kind, written, terminator)) :
    kind = s.kind ∧ written ≠ [] ∧ written ++ terminator <+: line ∧
      if kind.isBlock then ∃ blanks, (∀ c ∈ blanks, isSpaceOrTab c) ∧ terminator = blanks ++ [':']
      else terminator = [] := by
  unfold keywordBy? at h
  split at h
  · rename_i hspelled
    split at h
    · simp at h
    · rename_i hne
      rcases Option.map_eq_some_iff.1 h with ⟨_, hterminator, hparts⟩
      simp only [Prod.mk.injEq] at hparts
      obtain ⟨rfl, rfl, rfl⟩ := hparts
      rcases terminator?_prefix hterminator with ⟨⟨more, hmore⟩, hshape⟩
      refine ⟨rfl, by simpa using hne, ⟨more, ?_⟩, hshape⟩
      rw [List.append_assoc, hmore, (spelled?_eq_some_iff.1 hspelled).1]
  · simp at h

/-- The line lacks only carriage returns, so a keyword stands at the front of the text as well. -/
theorem span_of_keywordBy? {d : Dialect} {c : Char} {cs : List Char} {s : Spelling} {kind : TokenKind}
    {written terminator : List Char}
    (h : keywordBy? d (Text.dropEndWhile (· = '\r') (c :: cs)) s = some (kind, written, terminator)) :
    c :: cs.take ((written ++ terminator).length - 1) = written ++ terminator := by
  rcases keywordBy?_prefix h with ⟨-, hne, hprefix, -⟩
  rcases hprefix.trans (Text.dropEndWhile_prefix _ (c :: cs)) with ⟨more, hmore⟩
  cases written with
  | nil => exact absurd rfl hne
  | cons w ws =>
    rcases List.cons.inj hmore with ⟨hc, hcs⟩
    show c :: cs.take (ws ++ terminator).length = w :: (ws ++ terminator)
    rw [← hc, ← hcs]
    exact congrArg _ List.take_left

theorem accounted_of_keyword? {d : Dialect} (hd : ∀ s ∈ d.spellings, s.kind.isKeyword) {c : Char}
    {cs : List Char} {lx : Lexeme} (h : keyword? d c cs = some lx) : lx.Accounted := by
  unfold keyword? at h
  rcases Option.map_eq_some_iff.1 h with ⟨⟨kind, written, terminator⟩, hfound, rfl⟩
  rcases List.exists_of_findSome?_eq_some hfound with ⟨s, hs, hkeyword⟩
  rcases keywordBy?_prefix hkeyword with ⟨rfl, hne, -, hshape⟩
  have hkind := hd s (Dialect.mem_precedence.1 hs)
  dsimp only
  rw [span_of_keywordBy? hkeyword]
  refine .token (fun heof => ?_) (by simp) fun _ _ => ?_
  · rw [heof] at hkind
    cases hkind
  · unfold Token.Decodes
    dsimp only
    rw [String.toList_ofList]
    unfold TokenKind.isKeyword at hkind
    cases hcase : s.kind with
    | block =>
      rw [hcase, if_pos (by rfl)] at hshape
      rcases hshape with ⟨blanks, hblanks, rfl⟩
      exact ⟨blanks, hblanks, (List.append_assoc _ _ _).symm⟩
    | step =>
      rw [hcase, if_neg (by simp [TokenKind.isBlock])] at hshape
      rw [hshape, List.append_nil]
    | _ => simp [hcase, TokenKind.isBlock, TokenKind.isStep] at hkind

/-! ## Free text -/

theorem decodes_text_trimEnd (span : List Char) (loc : Location) (stop : Nat) :
    Token.Decodes ⟨.text, String.ofList (Text.trimEnd span), loc, stop, none⟩ span := by
  refine ⟨Text.takeEndWhile Text.isBlank span, fun c hc => ?_, ?_⟩
  · exact List.mem_takeWhile_imp (List.mem_reverse.1 hc)
  · rw [String.toList_ofList]
    exact (Text.dropEndWhile_append_takeEndWhile _ _).symm

theorem accounted_text (c : Char) (cs : List Char) : (text c cs).Accounted := by
  refine .token (by simp) (fun c hc => List.mem_takeWhile_imp (List.mem_reverse.1 hc)) fun loc stop => ?_
  exact ⟨[], by simp, by simp⟩

theorem unescapes_of_quotedTail? {quote : Char} {cs content written rest : List Char}
    (h : quotedTail? quote cs = some (content, written, rest)) :
    ∃ inner, written = inner ++ [quote] ∧ Unescapes quote inner content := by
  fun_induction quotedTail? quote cs generalizing content written rest with
  | case1 => simp at h
  | case2 c cs ih =>
    rcases Option.map_eq_some_iff.1 h with ⟨⟨_, _, _⟩, htail, hparts⟩
    simp only [Prod.mk.injEq] at hparts
    obtain ⟨rfl, rfl, -⟩ := hparts
    rcases ih htail with ⟨inner, rfl, hinner⟩
    exact ⟨'\\' :: c :: inner, rfl, .escaped c hinner⟩
  | case3 =>
    simp only [Option.some.injEq, Prod.mk.injEq] at h
    obtain ⟨rfl, rfl, -⟩ := h
    exact ⟨[], rfl, .nil⟩
  | case4 c cs hpair hquote ih =>
    rcases Option.map_eq_some_iff.1 h with ⟨⟨_, _, _⟩, htail, hparts⟩
    simp only [Prod.mk.injEq] at hparts
    obtain ⟨rfl, rfl, -⟩ := hparts
    rcases ih htail with ⟨inner, rfl, hinner⟩
    refine ⟨c :: inner, rfl, .plain (fun hslash => ?_) hquote hinner⟩
    -- A backslash that escapes nothing is the last character, and then no quote closes the string.
    cases cs with
    | nil => simp [quotedTail?] at htail
    | cons c' cs => exact hpair c' cs hslash rfl

theorem accounted_quoted {quote : Char} (hquote : quote = '"' ∨ quote = '\'') (cs : List Char) :
    (quoted quote cs).Accounted := by
  unfold quoted
  split
  · rename_i hclosed
    rcases unescapes_of_quotedTail? hclosed with ⟨inner, rfl, hinner⟩
    refine .token (by simp) (by simp) fun _ _ => ⟨quote, inner, hquote, rfl, ?_⟩
    rwa [String.toList_ofList]
  · exact .token (by simp) (by simp) (decodes_text_trimEnd _)

theorem accounted_inline (afterBlank : Bool) (c : Char) (cs : List Char) :
    (inline afterBlank c cs).Accounted := by
  unfold inline
  split
  · rename_i hopens
    simp only [Bool.or_eq_true, Bool.and_eq_true, decide_eq_true_eq] at hopens
    exact accounted_quoted (hopens.imp_right And.left) cs
  · split
    · split
      · refine .token (by simp) (by simp) fun _ _ => ?_
        show _ = '<' :: ((String.ofList _).toList ++ ['>'])
        rw [String.toList_ofList]
      · exact accounted_text c cs
    · exact accounted_text c cs

/-- Whatever the rule, a lexeme accounts for all that it takes. -/
theorem accounted_take {d : Dialect} (hd : ∀ s ∈ d.spellings, s.kind.isKeyword) (place : Place)
    (afterBlank : Bool) (c : Char) (cs : List Char) : (take d place afterBlank c cs).Accounted := by
  have hinline := accounted_inline afterBlank c cs
  have hkeyword : ((keyword? d c cs).getD (inline afterBlank c cs)).Accounted := by
    cases h : keyword? d c cs with
    | none => exact hinline
    | some lx => exact accounted_of_keyword? hd h
  cases place with
  | first =>
    unfold take
    dsimp only
    split
    · exact accounted_comment cs
    split
    · exact accounted_tag cs
    split
    · exact accounted_tableRow cs
    split
    · exact hkeyword
    · exact hinline
  | tags =>
    unfold take
    dsimp only
    split
    · exact accounted_tag cs
    split
    · exact accounted_comment cs
    · exact hinline
  | inside => exact hinline

end Lexeme

end Gherkin
