import Gherkin.DocString
import Gherkin.Token.Lexeme

/-!
# Scanning a source

A source is scanned line by line.  A line yields lexemes from left to right and then its line end; a
line that opens a doc string yields one token for all the lines up to the closing delimiter.  Every
token and every fault carries its location, and the last token stands at the end of the source.
-/

namespace Gherkin

structure LexicalError where
  fault : LexicalFault
  location : Location
deriving DecidableEq, Repr

namespace LexicalError

def message (e : LexicalError) : String := e.fault.message

def render (e : LexicalError) : String := s!"{e.location.render}: {e.message}"

end LexicalError

inductive Scanned where
  | token (t : Token)
  | error (e : LexicalError)
deriving DecidableEq, Repr

namespace Scanned

def token? : Scanned → Option Token
  | .token t => some t
  | .error _ => none

def error? : Scanned → Option LexicalError
  | .token _ => none
  | .error e => some e

end Scanned

namespace Scan

/-- The results of a lexeme at `loc`, its fault first. -/
def ofLexeme (loc : Location) (lx : Lexeme) : List Scanned :=
  (lx.fault.map fun fault => Scanned.error ⟨fault, loc⟩).toList ++
  (lx.token.map fun (kind, text) =>
    Scanned.token ⟨kind, String.ofList text, loc, (loc.past lx.span).offset, none⟩).toList

/-! ## Lines -/

/-- Blanks between the lexemes of a line; a carriage return inside a line is one. -/
def isGap (c : Char) : Bool := c = ' ' || c = '\t' || c = '\r'

/-- The results of the rest of a line.  `afterBlank` says that nothing or a blank stands before it. -/
def ofBody (d : Dialect) (place : Place) (afterBlank : Bool) (loc : Location) (body : List Char) :
    List Scanned :=
  let gap := body.takeWhile isGap
  match h : body.dropWhile isGap with
  | [] => []
  | c :: cs =>
    let loc := loc.past gap
    -- The start of a line and a blank both count for quotes.
    let lx := Lexeme.take d place (afterBlank || !gap.isEmpty) c cs
    have shorter : lx.rest.length < body.length := by
      have hrest : lx.rest.length ≤ cs.length := (Lexeme.takes_take d place _ c cs).length_rest_le
      have hbody := (List.dropWhile_suffix isGap (l := body)).length_le
      rw [h, List.length_cons] at hbody
      omega
    ofLexeme loc lx ++
      ofBody d (place.next c) ((lx.span ++ lx.slack).getLast?.all Text.isBlank)
        (loc.past (lx.span ++ lx.slack)) lx.rest
termination_by body.length

def ofEnding (loc : Location) (ending : Text.LineEnd) : List Scanned :=
  match ending with
  | .missing => []
  | _ => [.token ⟨.newline, "\n", loc, (loc.past ending.chars).offset, none⟩]

def cut? (p : Text.Line → Bool) :
    List Text.Line → Option (List Text.Line × Text.Line × List Text.Line)
  | [] => none
  | l :: ls =>
    if p l then some ([], l, ls)
    else (cut? p ls).map fun (before, found, after) => (l :: before, found, after)

theorem eq_append_of_cut? {p : Text.Line → Bool} {ls before after : List Text.Line}
    {found : Text.Line} (h : cut? p ls = some (before, found, after)) :
    ls = before ++ found :: after := by
  fun_induction cut? p ls generalizing before found after with
  | case1 => simp at h
  | case2 => simp_all
  | case3 l ls _ ih =>
    obtain ⟨⟨_, _, _⟩, hcut, hpair⟩ := Option.map_eq_some_iff.1 h
    simp only [Prod.mk.injEq] at hpair
    obtain ⟨rfl, rfl, rfl⟩ := hpair
    simp [ih hcut]

structure Fence where
  delimiter : Delimiter
  /-- The characters before the opening delimiter. -/
  indent : List Char
  /-- What follows the opening delimiter on its line. -/
  annotation : List Char

def fence? (l : Text.Line) : Option Fence :=
  (Delimiter.opening? (l.body.dropWhile isGap)).map fun (delimiter, annotation) =>
    ⟨delimiter, l.body.takeWhile isGap, annotation⟩

namespace Fence

def contentType (f : Fence) : Option String :=
  let annotation := Text.trim f.annotation
  if annotation.isEmpty then none else some (String.ofList annotation)

def openingSpan (f : Fence) : List Char := f.delimiter.chars ++ f.annotation

def token (f : Fence) (loc : Location) (content span : List Char) : Scanned :=
  .token ⟨.docString, String.ofList content, loc, (loc.past span).offset, f.contentType⟩

end Fence

structure Step where
  results : List Scanned
  /-- The lines that a doc string takes beside its first. -/
  taken : List Text.Line := []
  rest : List Text.Line

/-- Scans the line `l`, which `ls` follow.  An unterminated doc string is a fault and empty, and its
opening line is all it takes. -/
def line (d : Dialect) (loc : Location) (afterBlank : Bool) (l : Text.Line)
    (ls : List Text.Line) : Step :=
  match fence? l with
  | none =>
    { results := ofBody d .first afterBlank loc l.body ++ ofEnding (loc.past l.body) l.ending
      rest := ls }
  | some f =>
    let start := loc.past f.indent
    match cut? (fun l => f.delimiter.closes l.body) ls with
    | some (inner, closer, rest) =>
      let content := f.delimiter.content (start.column - 1) inner
      let span := f.openingSpan ++ l.ending.chars ++ inner.flatMap Text.Line.chars ++ closer.body
      { results := f.token start content span :: ofEnding (start.past span) closer.ending
        taken := inner ++ [closer]
        rest }
    | none =>
      { results := .error ⟨.unterminatedDocString, start⟩ ::
          f.token start [] f.openingSpan :: ofEnding (start.past f.openingSpan) l.ending
        rest := ls }

theorem line_taken_append_rest (d : Dialect) (loc : Location) (afterBlank : Bool) (l : Text.Line)
    (ls : List Text.Line) :
    (line d loc afterBlank l ls).taken ++ (line d loc afterBlank l ls).rest = ls := by
  unfold line
  split
  · rfl
  · dsimp only
    split
    · rename_i h
      simp [eq_append_of_cut? h]
    · rfl

theorem length_line_rest_le (d : Dialect) (loc : Location) (afterBlank : Bool) (l : Text.Line)
    (ls : List Text.Line) : (line d loc afterBlank l ls).rest.length ≤ ls.length := by
  have hsplit := congrArg List.length (line_taken_append_rest d loc afterBlank l ls)
  rw [List.length_append] at hsplit
  omega

def advance (loc : Location) (l : Text.Line) (taken : List Text.Line) : Location :=
  loc.past (l.chars ++ taken.flatMap Text.Line.chars)

def lines (d : Dialect) (loc : Location) (afterBlank : Bool) : List Text.Line → List Scanned
  | [] => [.token ⟨.eof, "", loc, loc.offset, none⟩]
  | l :: ls =>
    let step := line d loc afterBlank l ls
    have : (line d loc afterBlank l ls).rest.length ≤ ls.length :=
      length_line_rest_le d loc afterBlank l ls
    step.results ++ lines d (advance loc l step.taken) true step.rest
termination_by ls => ls.length

/-- The mark that may stand before the first line and belongs to none. -/
def byteOrderMark : Char := '\uFEFF'

def opening (source : List Char) : Location × Bool × List Char :=
  match source with
  | c :: cs =>
    if c = byteOrderMark then ({ Location.start with offset := c.utf8Size }, false, cs)
    else (Location.start, true, source)
  | [] => (Location.start, true, [])

def all (d : Dialect) (source : String) : List Scanned :=
  let (loc, afterBlank, cs) := opening source.toList
  lines d loc afterBlank (Text.lines cs)

end Scan

def tokens (d : Dialect) (source : String) : List Token :=
  (Scan.all d source).filterMap Scanned.token?

def lexicalErrors (d : Dialect) (source : String) : List LexicalError :=
  (Scan.all d source).filterMap Scanned.error?

end Gherkin
