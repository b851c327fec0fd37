import Gherkin.Dialect
import Gherkin.Placeholder
import Gherkin.Text.Alphabetic

/-!
# Lexemes of a line

A lexeme is what one rule takes from the front of the rest of a line.  It covers a span, which is the
token's own, and perhaps slack after it, blanks that belong to no token.  Span, slack and what the
lexeme leaves over are together the text it was taken from.
-/

namespace Gherkin

inductive LexicalFault where
  | missingTagName
  | unterminatedString
  | unterminatedDocString
deriving DecidableEq, Repr

def LexicalFault.message : LexicalFault → String
  | .missingTagName => "expected tag name after '@'"
  | .unterminatedString => "unterminated string"
  | .unterminatedDocString => "unterminated doc string"

/-- Where in a line a scan stands: on its first word, after tags, or elsewhere. -/
inductive Place where
  | first
  | tags
  | inside
deriving DecidableEq, Repr

def Place.next : Place → Char → Place
  | .first, c => if c = '@' then .tags else .inside
  | place, _ => place

structure Lexeme where
  token : Option (TokenKind × List Char)
  fault : Option LexicalFault := none
  span : List Char
  slack : List Char := []
  rest : List Char

namespace Lexeme

def isTagCharacter (c : Char) : Bool := c.isAlphanum || c = '_' || c = '-'

theorem isTagCharacter_iff (c : Char) : isTagCharacter c = true ↔ c.isAlphanum ∨ c = '_' ∨ c = '-' := by
  simp [isTagCharacter, or_assoc]

def comment (cs : List Char) : Lexeme where
  token := some (.comment, Text.trim cs)
  span := '#' :: cs
  rest := []

def tableRow (cs : List Char) : Lexeme where
  token := some (.tableRow, Text.trimEnd ('|' :: cs))
  span := '|' :: cs
  rest := []

def tag (cs : List Char) : Lexeme :=
  let name := cs.takeWhile isTagCharacter
  if name.isEmpty then
    { token := none, fault := some .missingTagName, span := [], slack := ['@'], rest := cs }
  else
    { token := some (.tag, '@' :: name), span := '@' :: name, rest := cs.dropWhile isTagCharacter }

/-! ## Keywords -/

def spelled? (d : Dialect) : List Char → List Char → Option (List Char × List Char)
  | [], cs => some ([], cs)
  | _ :: _, [] => none
  | s :: ss, c :: cs =>
    if d.sameCharacter s c then (spelled? d ss cs).map fun (written, rest) => (c :: written, rest)
    else none

def isSpaceOrTab (c : Char) : Bool := c = ' ' || c = '\t'

/-- What a keyword takes with it: a block's keyword its colon, perhaps after blanks, a step's keyword
nothing, but a blank or the end of the line must follow. -/
def terminator? (kind : TokenKind) (cs : List Char) : Option (List Char) :=
  if kind.isBlock then
    match cs.dropWhile isSpaceOrTab with
    | ':' :: _ => some (cs.takeWhile isSpaceOrTab ++ [':'])
    | _ => none
  else if cs.head?.all isSpaceOrTab then some []
  else none

def keywordBy? (d : Dialect) (line : List Char) (s : Spelling) :
    Option (TokenKind × List Char × List Char) :=
  match spelled? d s.text.toList line with
  | some (written, rest) =>
    if written.isEmpty then none else (terminator? s.kind rest).map (s.kind, written, ·)
  | none => none

theorem written_ne_nil {d : Dialect} {line written terminator : List Char} {s : Spelling} {kind : TokenKind}
    (h : keywordBy? d line s = some (kind, written, terminator)) : written ≠ [] := by
  unfold keywordBy? at h
  split at h
  · split at h
    · cases h
    · rename_i hne
      obtain ⟨_, -, hparts⟩ := Option.map_eq_some_iff.1 h
      cases hparts
      simpa using hne
  · cases h

def keyword? (d : Dialect) (c : Char) (cs : List Char) : Option Lexeme :=
  let line := Text.dropEndWhile (· = '\r') (c :: cs)
  (d.precedence.findSome? (keywordBy? d line)).map fun (kind, written, terminator) =>
    -- The span starts with `c`, so one character less is taken from `cs`.
    let more := (written ++ terminator).length - 1
    { token := some (kind, written), span := c :: cs.take more, rest := cs.drop more }

/-! ## Free text -/

/-- The text up to the next quote or placeholder.  An apostrophe opens a quote only after a blank. -/
def textTail (afterBlank : Bool) : List Char → List Char × List Char
  | [] => ([], [])
  | c :: cs =>
    if c = '"' || (c = '\'' && afterBlank) || (c = '<' && (Placeholder.name? cs).isSome) then
      ([], c :: cs)
    else
      let (taken, rest) := textTail (Text.isBlank c) cs
      (c :: taken, rest)

/-- A run of text; the blanks at its end are slack. -/
def text (c : Char) (cs : List Char) : Lexeme :=
  let (taken, rest) := textTail (Text.isBlank c) cs
  let span := Text.trimEnd (c :: taken)
  { token := some (.text, span)
    span
    slack := Text.takeEndWhile Text.isBlank (c :: taken)
    rest }

/-- The content up to the closing quote, the characters it is written with, and the rest. -/
def quotedTail? (quote : Char) : List Char → Option (List Char × List Char × List Char)
  | [] => none
  | '\\' :: c :: cs =>
    (quotedTail? quote cs).map fun (content, written, rest) =>
      (c :: content, '\\' :: c :: written, rest)
  | c :: cs =>
    if c = quote then some ([], [c], cs)
    else (quotedTail? quote cs).map fun (content, written, rest) =>
      (c :: content, c :: written, rest)

/-- A quoted string.  Without a closing quote the rest of the line is text, and a fault if the quote is
a double one. -/
def quoted (quote : Char) (cs : List Char) : Lexeme :=
  match quotedTail? quote cs with
  | some (content, written, rest) =>
    { token := some (.quotedString, content), span := quote :: written, rest }
  | none =>
    { token := some (.text, Text.trimEnd (quote :: cs))
      fault := if quote = '"' then some .unterminatedString else none
      span := quote :: cs
      rest := [] }

def inline (afterBlank : Bool) (c : Char) (cs : List Char) : Lexeme :=
  if c = '"' || (c = '\'' && afterBlank) then quoted c cs
  else if c = '<' then
    match Placeholder.name? cs with
    | some (name, rest) =>
      { token := some (.placeholder, name), span := '<' :: (name ++ ['>']), rest }
    | none => text c cs
  else text c cs

def take (d : Dialect) (place : Place) (afterBlank : Bool) (c : Char) (cs : List Char) : Lexeme :=
  match place with
  | .first =>
    if c = '#' then comment cs
    else if c = '@' then tag cs
    else if c = '|' then tableRow cs
    else if Text.isAlphabetic c then (keyword? d c cs).getD (inline afterBlank c cs)
    else inline afterBlank c cs
  | .tags =>
    if c = '@' then tag cs
    else if c = '#' then comment cs
    else inline afterBlank c cs
  | .inside => inline afterBlank c cs

/-! ## What a lexeme takes -/

/-- The lexeme takes `c` and perhaps more from the front of `c :: cs`, and leaves over the rest. -/
def Takes (lx : Lexeme) (c : Char) (cs : List Char) : Prop :=
  ∃ tail, lx.span ++ lx.slack = c :: tail ∧ tail ++ lx.rest = cs

theorem Takes.append_rest {lx : Lexeme} {c : Char} {cs : List Char} (h : lx.Takes c cs) :
    lx.span ++ lx.slack ++ lx.rest = c :: cs := by
  obtain ⟨tail, hspan, rfl⟩ := h
  rw [hspan, List.cons_append]

theorem Takes.length_rest_le {lx : Lexeme} {c : Char} {cs : List Char} (h : lx.Takes c cs) :
    lx.rest.length ≤ cs.length := by
  obtain ⟨tail, -, rfl⟩ := h
  simp

theorem textTail_append (afterBlank : Bool) (cs : List Char) :
    (textTail afterBlank cs).1 ++ (textTail afterBlank cs).2 = cs := by
  fun_induction textTail afterBlank cs with
  | case1 => rfl
  | case2 => rfl
  | case3 _ c cs _ taken rest h ih => rw [h] at ih; simpa using ih

theorem takes_text (c : Char) (cs : List Char) : (text c cs).Takes c cs :=
  ⟨_, Text.dropEndWhile_append_takeEndWhile _ _, textTail_append _ cs⟩

theorem append_of_quotedTail? {quote : Char} {cs content written rest : List Char}
    (h : quotedTail? quote cs = some (content, written, rest)) : written ++ rest = cs := by
  fun_induction quotedTail? quote cs generalizing content written rest with
  | case1 => simp at h
  | case2 c cs ih =>
    obtain ⟨_, htail, hparts⟩ := Option.map_eq_some_iff.1 h
    simp only [Prod.mk.injEq] at hparts
    obtain ⟨-, rfl, rfl⟩ := hparts
    simp [ih htail]
  | case3 =>
    simp only [Option.some.injEq, Prod.mk.injEq] at h
    obtain ⟨-, rfl, rfl⟩ := h
    rfl
  | case4 c cs _ _ ih =>
    obtain ⟨_, htail, hparts⟩ := Option.map_eq_some_iff.1 h
    simp only [Prod.mk.injEq] at hparts
    obtain ⟨-, rfl, rfl⟩ := hparts
    simp [ih htail]

theorem takes_quoted (quote : Char) (cs : List Char) : (quoted quote cs).Takes quote cs := by
  unfold quoted
  split
  · rename_i h
    exact ⟨_, by simp, append_of_quotedTail? h⟩
  · exact ⟨cs, by simp, by simp⟩

theorem takes_inline (afterBlank : Bool) (c : Char) (cs : List Char) :
    (inline afterBlank c cs).Takes c cs := by
  unfold inline
  split
  · exact takes_quoted c cs
  · split
    · rename_i hbracket
      subst hbracket
      split
      · rename_i h
        exact ⟨_, List.append_nil _, by simp [Placeholder.eq_append_of_name? h]⟩
      · exact takes_text _ cs
    · exact takes_text c cs

theorem takes_tag (cs : List Char) : (tag cs).Takes '@' cs := by
  simp only [tag]
  split
  · exact ⟨[], by simp, by simp⟩
  · exact ⟨_, by simp, List.takeWhile_append_dropWhile⟩

theorem takes_of_keyword? {d : Dialect} {c : Char} {cs : List Char} {lx : Lexeme}
    (h : keyword? d c cs = some lx) : lx.Takes c cs := by
  obtain ⟨_, -, rfl⟩ := Option.map_eq_some_iff.1 h
  exact ⟨_, by simp, List.take_append_drop _ cs⟩

/-- Whatever the rule, a lexeme takes at least one character and loses none. -/
theorem takes_take (d : Dialect) (place : Place) (afterBlank : Bool) (c : Char) (cs : List Char) :
    (take d place afterBlank c cs).Takes c cs := by
  have hcomment : (comment cs).Takes '#' cs := ⟨cs, by simp [comment], by simp [comment]⟩
  have hrow : (tableRow cs).Takes '|' cs := ⟨cs, by simp [tableRow], by simp [tableRow]⟩
  have hkeyword : ((keyword? d c cs).getD (inline afterBlank c cs)).Takes c cs := by
    cases h : keyword? d c cs with
    | none => exact takes_inline afterBlank c cs
    | some lx => exact takes_of_keyword? h
  cases place with
  | first =>
    simp only [take]
    repeat' split
    all_goals simp_all [takes_tag, takes_inline]
  | tags =>
    simp only [take]
    repeat' split
    all_goals simp_all [takes_tag, takes_inline]
  | inside => exact takes_inline afterBlank c cs

end Lexeme

end Gherkin
