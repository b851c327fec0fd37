import Gherkin.Text.Bytes
import Gherkin.Token.Scan

/-!
# Reading tokens one at a time

A cursor goes over a source character by character and hands out a token on demand.  It knows whether it stands at
the start of a line, where comments, tags, rows, doc strings and keywords are recognised, and whether the line started
with a tag.  It never gives up: what is malformed is recorded as a fault, and read as far as it goes.
-/

namespace Gherkin

structure Cursor where
  dialect : Dialect
  source : String
  /-- The character that the cursor has gone past last. -/
  before : Option Char
  rest : List Char
  location : Location
  atLineStart : Bool
  /-- Whether the line started with a tag. -/
  tagLine : Bool
  /-- Whether `next?` has handed out the end of the source. -/
  finished : Bool
  /-- The faults met since the start or the last reset. -/
  errors : List LexicalError

namespace Cursor

def start (dialect : Dialect) (source : String) : Cursor :=
  let atStart : Cursor :=
    { dialect, source, before := none, rest := source.toList, location := .start
      atLineStart := true, tagLine := false, finished := false, errors := [] }
  match source.toList with
  | [] => atStart
  | x :: rest =>
    if x = Scan.byteOrderMark then
      { atStart with before := some x, rest, location := { Location.start with offset := x.utf8Size } }
    else atStart

def reset (c : Cursor) : Cursor := start c.dialect c.source

def error (c : Cursor) (fault : LexicalFault) (loc : Location) : Cursor :=
  { c with errors := c.errors ++ [⟨fault, loc⟩] }

/-! ## Characters -/

/-- Goes past one character, which ends no line. -/
def bump (c : Cursor) : Cursor :=
  match c.rest with
  | [] => c
  | x :: rest =>
    { c with
      before := some x
      rest
      location := ⟨c.location.line, c.location.column + 1, c.location.offset + x.utf8Size⟩ }

/-- Goes past as many characters as `cs` has. -/
def advanceOver (c : Cursor) (cs : List Char) : Cursor := cs.foldl (fun c _ => c.bump) c

def atLineEnd (c : Cursor) : Bool :=
  match c.rest with
  | [] | '\n' :: _ | '\r' :: '\n' :: _ => true
  | _ => false

def lineRemainder (c : Cursor) : List Char :=
  Text.dropEndWhile (· = '\r') (c.rest.takeWhile (· ≠ '\n'))

theorem length_bump_lt {c : Cursor} (h : c.rest ≠ []) : c.bump.rest.length < c.rest.length := by
  unfold bump
  cases hrest : c.rest with
  | nil => exact absurd hrest h
  | cons x rest => exact Nat.lt_succ_self _

theorem length_bump_le (c : Cursor) : c.bump.rest.length ≤ c.rest.length := by
  by_cases h : c.rest = []
  · unfold bump
    rw [h]
    exact Nat.le_of_eq (congrArg List.length h)
  · exact Nat.le_of_lt (length_bump_lt h)

theorem rest_ne_nil_of_not_atLineEnd {c : Cursor} (h : ¬ c.atLineEnd) : c.rest ≠ [] := by
  intro hrest
  unfold atLineEnd at h
  rw [hrest] at h
  exact h rfl

def advanceToLineEnd (c : Cursor) : Cursor :=
  if h : c.atLineEnd then c
  else
    have := length_bump_lt (rest_ne_nil_of_not_atLineEnd h)
    c.bump.advanceToLineEnd
termination_by c.rest.length

/-- Whether a space, a tab or a carriage return that belongs to no line end is next. -/
def atBlank (c : Cursor) : Bool :=
  match c.rest with
  | ' ' :: _ | '\t' :: _ => true
  | '\r' :: rest => rest.head? ≠ some '\n'
  | _ => false

def skipBlanks (c : Cursor) : Cursor :=
  if h : c.atBlank then
    have := length_bump_lt (c := c) (by
      intro hrest
      unfold atBlank at h
      rw [hrest] at h
      exact Bool.noConfusion h)
    c.bump.skipBlanks
  else c
termination_by c.rest.length

def consumeNewline (c : Cursor) : Option Cursor :=
  -- What follows a line end is a line of its own, whatever the one before it was.
  let past (width : Nat) (rest : List Char) : Cursor :=
    { c with
      before := some '\n'
      rest
      location := ⟨c.location.line + 1, 1, c.location.offset + width⟩
      atLineStart := true
      tagLine := false }
  match c.rest with
  | '\r' :: '\n' :: rest => some (past 2 rest)
  | '\n' :: rest => some (past 1 rest)
  | _ => none

def since (c : Cursor) (start : Cursor) : List Char :=
  Text.takeBytes (c.location.offset - start.location.offset) start.rest

/-! ## Tokens -/

def token (c : Cursor) (kind : TokenKind) (text : List Char) (start : Cursor) : Token :=
  ⟨kind, String.ofList text, start.location, c.location.offset, none⟩

def lexComment (start : Cursor) : Token × Cursor :=
  let c := start.bump
  let text := Text.trim c.lineRemainder
  let c := c.advanceToLineEnd
  (c.token .comment text start, c)

def lexTag (start : Cursor) : Option Token × Cursor :=
  let c := start.bump
  let name := c.rest.takeWhile Lexeme.isTagCharacter
  if name.isEmpty then (none, c.error .missingTagName start.location)
  else
    let c := c.advanceOver name
    (some (c.token .tag ('@' :: name) start), c)

def lexTableRow (start : Cursor) : Token × Cursor :=
  let text := Text.trimEnd start.lineRemainder
  let c := start.advanceToLineEnd
  (c.token .tableRow text start, c)

/-! ## Free text -/

/-- A single quote opens a quoted string only after a blank. -/
def quoteMayOpen (c : Cursor) : Bool := c.before.all Text.isBlank

def stopsText (c : Cursor) : Bool :=
  match c.rest with
  | '"' :: _ => true
  | '\'' :: _ => c.quoteMayOpen
  -- An angle bracket that closes no name is text.
  | '<' :: rest => (Placeholder.name? rest).isSome
  | _ => false

def advanceOverText (c : Cursor) : Cursor :=
  if h : c.atLineEnd ∨ c.stopsText then c
  else
    have := length_bump_lt (rest_ne_nil_of_not_atLineEnd fun hend => h (.inl hend))
    c.bump.advanceOverText
termination_by c.rest.length

def lexText (start : Cursor) : Token × Cursor :=
  let c := start.bump.advanceOverText
  let text := Text.trimEnd (c.since start)
  (⟨.text, String.ofList text, start.location, start.location.offset + Text.byteLength text, none⟩, c)

def quotedContent? (quote : Char) (content : List Char) (c : Cursor) : Option (List Char) × Cursor :=
  if h : c.atLineEnd then (none, c)
  else
    have hlt := length_bump_lt (rest_ne_nil_of_not_atLineEnd h)
    match c.rest.head? with
    | none => (none, c)
    | some x =>
      -- A backslash takes the next character as it is, but never the end of the line.
      if x = '\\' ∧ !c.bump.atLineEnd then
        have := Nat.lt_of_le_of_lt c.bump.length_bump_le hlt
        c.bump.bump.quotedContent? quote (content ++ c.bump.rest.head?.toList)
      else if x = quote then (some content, c.bump)
      else c.bump.quotedContent? quote (content ++ [x])
termination_by c.rest.length

/-- A quoted string.  Without a closing quote it is text, and a fault if the quote is a double one. -/
def lexQuoted (quote : Char) (start : Cursor) : Token × Cursor :=
  match start.bump.quotedContent? quote [] with
  | (some content, c) => (c.token .quotedString content start, c)
  | (none, c) =>
    let c := if quote = '"' then c.error .unterminatedString start.location else c
    (c.token .text (Text.trimEnd (c.since start)) start, c)

def lexPlaceholder? (start : Cursor) : Option (Token × Cursor) :=
  (Placeholder.name? start.bump.rest).map fun (name, _) =>
    -- The name, and the bracket behind it.
    let c := (start.bump.advanceOver name).bump
    (c.token .placeholder name start, c)

def lexInline (x : Char) (start : Cursor) : Token × Cursor :=
  match x with
  | '"' => start.lexQuoted '"'
  | '\'' => if start.quoteMayOpen then start.lexQuoted '\'' else start.lexText
  | '<' => start.lexPlaceholder?.getD start.lexText
  | _ => start.lexText

/-! ## Starts of lines -/

def lexKeywordOrText (x : Char) (start : Cursor) : Token × Cursor :=
  match start.dialect.precedence.findSome? (Lexeme.keywordBy? start.dialect start.lineRemainder) with
  | some (kind, written, terminator) =>
    let c := start.advanceOver (written ++ terminator)
    (c.token kind written start, c)
  | none => start.lexInline x

theorem length_consumeNewline_lt {c c' : Cursor} (h : c.consumeNewline = some c') :
    c'.rest.length < c.rest.length := by
  unfold consumeNewline at h
  split at h
  case h_1 hrest =>
    cases h
    rw [hrest]
    exact Nat.lt_succ_of_lt (Nat.lt_succ_self _)
  case h_2 hrest =>
    cases h
    rw [hrest]
    exact Nat.lt_succ_self _
  case h_3 => cases h

theorem length_advanceToLineEnd_le (c : Cursor) : c.advanceToLineEnd.rest.length ≤ c.rest.length := by
  fun_induction advanceToLineEnd c with
  | case1 => exact Nat.le_refl _
  | case2 c h hlt ih => exact Nat.le_trans ih (Nat.le_of_lt hlt)

/-- The lines up to the one that closes a doc string, less their indentation. -/
def docStringLines? (delimiter : Delimiter) (indent : Nat) (lines : List (List Char)) (c : Cursor) :
    Option (List (List Char)) × Cursor :=
  match h : c.consumeNewline with
  | none => (none, c)
  | some line =>
    have := Nat.lt_of_le_of_lt line.length_advanceToLineEnd_le (length_consumeNewline_lt h)
    if delimiter.closes line.lineRemainder then (some lines, line.advanceToLineEnd)
    else
      line.advanceToLineEnd.docStringLines? delimiter indent
        (lines ++ [Delimiter.stripIndent indent line.lineRemainder])
termination_by c.rest.length

def restore (c checkpoint : Cursor) : Cursor :=
  { c with
    before := checkpoint.before
    rest := checkpoint.rest
    location := checkpoint.location
    atLineStart := false
    tagLine := false }

/-- A doc string whose opening delimiter is next.  One that is not closed is a fault and empty, and the line of its
delimiter is all it takes. -/
def lexDocString (delimiter : Delimiter) (start : Cursor) : Token × Cursor :=
  let c := start.advanceOver delimiter.chars
  let annotation := Text.trim c.lineRemainder
  let contentType := if annotation.isEmpty then none else some (String.ofList annotation)
  -- Where reading goes on if no line closes the doc string.
  let resume := c.advanceToLineEnd
  let read := resume.docStringLines? delimiter (start.location.column - 1) []
  let c := { read.2 with atLineStart := false }
  match read.1 with
  | some lines =>
    ({ c.token .docString (delimiter.unescape (List.intercalate ['\n'] lines)) start with contentType }, c)
  | none =>
    -- Of all that has been read, only the first line is not given back.
    let c := (c.restore resume).error .unterminatedDocString start.location
    ({ c.token .docString [] start with contentType }, c)

def lexLineStart (x : Char) (c : Cursor) : Option Token × Cursor :=
  let some' (read : Token × Cursor) : Option Token × Cursor := (some read.1, read.2)
  match x with
  | '#' => some' c.lexComment
  | '@' => { c with tagLine := true }.lexTag
  | '|' => some' c.lexTableRow
  | _ =>
    match Delimiter.opening? c.rest with
    | some (delimiter, _) => some' (c.lexDocString delimiter)
    | none => some' (if Text.isAlphabetic x then c.lexKeywordOrText x else c.lexInline x)

def lexHere (x : Char) (c : Cursor) : Option Token × Cursor :=
  let here := { c with atLineStart := false }
  if c.atLineStart then here.lexLineStart x
  -- Behind tags there may be more of them or a comment, as at the start of a line, but no keyword.
  else if c.tagLine ∧ x = '@' then here.lexTag
  else
    let (t, c) := if c.tagLine ∧ x = '#' then here.lexComment else here.lexInline x
    (some t, c)

/-! ## Every token takes a character -/

section
variable {c : Cursor}

theorem length_advanceOver_le (c : Cursor) (cs : List Char) : (c.advanceOver cs).rest.length ≤ c.rest.length := by
  induction cs generalizing c with
  | nil => exact Nat.le_refl _
  | cons x cs ih => exact Nat.le_trans (ih c.bump) c.length_bump_le

theorem length_advanceOver_lt (h : c.rest ≠ []) {cs : List Char} (hcs : cs ≠ []) :
    (c.advanceOver cs).rest.length < c.rest.length := by
  cases cs with
  | nil => exact absurd rfl hcs
  | cons x cs => exact Nat.lt_of_le_of_lt (c.bump.length_advanceOver_le cs) (length_bump_lt h)

theorem length_skipBlanks_le (c : Cursor) : c.skipBlanks.rest.length ≤ c.rest.length := by
  fun_induction skipBlanks c with
  | case1 c h hlt ih => exact Nat.le_trans ih (Nat.le_of_lt hlt)
  | case2 => exact Nat.le_refl _

theorem length_advanceToLineEnd_lt (h : ¬ c.atLineEnd) : c.advanceToLineEnd.rest.length < c.rest.length := by
  rw [advanceToLineEnd, dif_neg h]
  exact Nat.lt_of_le_of_lt c.bump.length_advanceToLineEnd_le (length_bump_lt (rest_ne_nil_of_not_atLineEnd h))

theorem length_lexComment_lt (h : c.rest ≠ []) : c.lexComment.2.rest.length < c.rest.length :=
  Nat.lt_of_le_of_lt c.bump.length_advanceToLineEnd_le (length_bump_lt h)

theorem length_lexTag_lt (h : c.rest ≠ []) : c.lexTag.2.rest.length < c.rest.length := by
  unfold lexTag
  dsimp only
  split
  · exact length_bump_lt h
  · exact Nat.lt_of_le_of_lt (c.bump.length_advanceOver_le _) (length_bump_lt h)

theorem length_advanceOverText_le (c : Cursor) : c.advanceOverText.rest.length ≤ c.rest.length := by
  fun_induction advanceOverText c with
  | case1 => exact Nat.le_refl _
  | case2 c h hlt ih => exact Nat.le_trans ih (Nat.le_of_lt hlt)

theorem length_lexText_lt (h : c.rest ≠ []) : c.lexText.2.rest.length < c.rest.length :=
  Nat.lt_of_le_of_lt c.bump.length_advanceOverText_le (length_bump_lt h)

theorem length_quotedContent?_le (quote : Char) (content : List Char) (c : Cursor) :
    (c.quotedContent? quote content).2.rest.length ≤ c.rest.length := by
  fun_induction quotedContent? quote content c with
  | case1 => exact Nat.le_refl _
  | case2 => exact Nat.le_refl _
  | case3 content c h hlt x hx hescape hless ih => exact Nat.le_trans ih (Nat.le_of_lt hless)
  | case4 content c h hlt => exact Nat.le_of_lt hlt
  | case5 content c h hlt x hx hescape hquote ih => exact Nat.le_trans ih (Nat.le_of_lt hlt)

theorem length_lexQuoted_lt (h : c.rest ≠ []) (quote : Char) :
    (c.lexQuoted quote).2.rest.length < c.rest.length := by
  have hle := length_quotedContent?_le quote [] c.bump
  have hlt := Nat.lt_of_le_of_lt hle (length_bump_lt h)
  unfold lexQuoted
  split
  case h_1 hcontent =>
    rw [hcontent] at hlt
    exact hlt
  case h_2 hcontent =>
    rw [hcontent] at hlt
    dsimp only
    split <;> exact hlt

theorem length_lexPlaceholder?_lt (h : c.rest ≠ []) {read : Token × Cursor} (hread : c.lexPlaceholder? = some read) :
    read.2.rest.length < c.rest.length := by
  obtain ⟨found, -, rfl⟩ := Option.map_eq_some_iff.1 hread
  exact Nat.lt_of_le_of_lt (Nat.le_trans (length_bump_le _) (length_advanceOver_le _ _)) (length_bump_lt h)

theorem length_lexInline_lt (h : c.rest ≠ []) (x : Char) : (c.lexInline x).2.rest.length < c.rest.length := by
  unfold lexInline
  split
  · exact length_lexQuoted_lt h _
  · split
    · exact length_lexQuoted_lt h _
    · exact length_lexText_lt h
  · cases hread : c.lexPlaceholder? with
    | none => exact length_lexText_lt h
    | some read => exact length_lexPlaceholder?_lt h hread
  · exact length_lexText_lt h

theorem length_lexKeywordOrText_lt (h : c.rest ≠ []) (x : Char) :
    (c.lexKeywordOrText x).2.rest.length < c.rest.length := by
  unfold lexKeywordOrText
  split
  case h_1 hfound =>
    obtain ⟨s, -, hs⟩ := List.exists_of_findSome?_eq_some hfound
    exact length_advanceOver_lt h (by simp [Lexeme.written_ne_nil hs])
  case h_2 => exact length_lexInline_lt h x

theorem length_docStringLines?_le (delimiter : Delimiter) (indent : Nat) (lines : List (List Char)) (c : Cursor) :
    (c.docStringLines? delimiter indent lines).2.rest.length ≤ c.rest.length := by
  fun_induction docStringLines? delimiter indent lines c with
  | case1 => exact Nat.le_refl _
  | case2 lines c line h hlt hcloses => exact Nat.le_of_lt hlt
  | case3 lines c line h hlt hcloses ih => exact Nat.le_trans ih (Nat.le_of_lt hlt)

theorem length_lexDocString_lt (h : c.rest ≠ []) (delimiter : Delimiter) :
    (c.lexDocString delimiter).2.rest.length < c.rest.length := by
  have hchars : delimiter.chars ≠ [] := List.cons_ne_nil _ _
  have hresume := Nat.lt_of_le_of_lt (c.advanceOver delimiter.chars).length_advanceToLineEnd_le
    (length_advanceOver_lt h hchars)
  have hlines := length_docStringLines?_le delimiter (c.location.column - 1) []
    (c.advanceOver delimiter.chars).advanceToLineEnd
  unfold lexDocString
  dsimp only
  split
  · exact Nat.lt_of_le_of_lt hlines hresume
  · exact hresume

theorem length_lexLineStart_lt {x : Char} {rest : List Char} (h : c.rest = x :: rest) :
    (c.lexLineStart x).2.rest.length < c.rest.length := by
  have hne : c.rest ≠ [] := h ▸ List.cons_ne_nil _ _
  unfold lexLineStart
  split
  · exact length_lexComment_lt hne
  · exact length_lexTag_lt (c := { c with tagLine := true }) hne
  · exact length_advanceToLineEnd_lt (by simp [atLineEnd, h])
  · split
    · exact length_lexDocString_lt hne _
    · dsimp only
      split
      · exact length_lexKeywordOrText_lt hne x
      · exact length_lexInline_lt hne x

theorem length_lexHere_lt {x : Char} {rest : List Char} (h : c.rest = x :: rest) :
    (c.lexHere x).2.rest.length < c.rest.length := by
  have hne : c.rest ≠ [] := h ▸ List.cons_ne_nil _ _
  let here : Cursor := { c with atLineStart := false }
  unfold lexHere
  dsimp only
  split
  · exact length_lexLineStart_lt (c := here) h
  · split
    · exact length_lexTag_lt (c := here) hne
    · split
      · exact length_lexComment_lt (c := here) hne
      · exact length_lexInline_lt (c := here) hne x

end

/-! ## The next token -/

/-- The next token.  At the end of the source that is the end, over and over. -/
def nextToken (c : Cursor) : Token × Cursor :=
  let start := c.skipBlanks
  match hrest : start.rest with
  | [] => (start.token .eof [] start, start)
  | x :: _ =>
    match start.consumeNewline with
    | some after => (after.token .newline ['\n'] start, after)
    | none =>
      let read := start.lexHere x
      have : read.2.rest.length < c.rest.length :=
        Nat.lt_of_lt_of_le (length_lexHere_lt hrest) c.length_skipBlanks_le
      match read.1 with
      | some t => (t, read.2)
      -- An at sign without a name is a fault and no token, so the next one is looked for.
      | none => read.2.nextToken
termination_by c.rest.length

/-- The next token, or nothing once the end of the source has been handed out. -/
def next? (c : Cursor) : Option Token × Cursor :=
  if c.finished then (none, c)
  else
    let (t, c) := c.nextToken
    (some t, { c with finished := t.kind = .eof })

/-- A token that is not the end of the source leaves less to read. -/
theorem nextToken_lt (c : Cursor) (h : c.nextToken.1.kind ≠ .eof) :
    c.nextToken.2.rest.length < c.rest.length := by
  have hblanks := c.length_skipBlanks_le
  fun_induction nextToken c with
  | case1 => exact absurd rfl h
  | case2 c start x rest hrest after hafter => exact Nat.lt_of_lt_of_le (length_consumeNewline_lt hafter) hblanks
  | case3 c start x rest hrest hnewline read hlt t ht => exact hlt
  | case4 c start x rest hrest hnewline read hlt hnone ih => exact Nat.lt_trans (ih h (length_skipBlanks_le _)) hlt

def drain (c : Cursor) : List Token × Cursor :=
  if c.finished then ([], c)
  else
    let t := c.nextToken.1
    let c' := c.nextToken.2
    if h : t.kind = .eof then ([t], { c' with finished := true })
    else
      have := nextToken_lt c h
      let (ts, last) := drain c'
      (t :: ts, last)
termination_by c.rest.length

def tokenize (c : Cursor) : List Token × Cursor := c.reset.drain

inductive Call where
  | nextToken
  | next
  | drain
  | tokenize
  | reset
deriving DecidableEq, Repr

def call (c : Cursor) : Call → List Token × Cursor
  | .nextToken => let (t, c) := c.nextToken; ([t], c)
  | .next => let (t?, c) := c.next?; (t?.toList, c)
  | .drain => c.drain
  | .tokenize => c.tokenize
  | .reset => ([], c.reset)

def recorded (c : Cursor) : Call → List LexicalError
  | .tokenize => c.tokenize.2.errors
  | call => (c.call call).2.errors.drop c.errors.length

end Cursor

end Gherkin
