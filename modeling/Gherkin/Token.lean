import Gherkin.Keyword
import Gherkin.Location

/-!
# Tokens

A token is a classified piece of a source with the place where it starts and the byte offset where it
stops.
-/

namespace Gherkin

inductive TokenKind where
  | block (b : Block)
  | step (k : StepKeyword)
  | tag
  | comment
  | tableRow
  | docString
  | text
  | quotedString
  | placeholder
  | newline
  | eof
deriving DecidableEq, Repr

namespace TokenKind

def all : List TokenKind :=
  [.feature, .background, .scenario, .scenarioOutline, .examples].map .block ++
  [.given, .when, .thus, .and, .but].map .step ++
  [.tag, .comment, .tableRow, .docString, .text, .quotedString, .placeholder, .newline, .eof]

def isBlock : TokenKind → Bool
  | .block _ => true
  | _ => false

def isStep : TokenKind → Bool
  | .step _ => true
  | _ => false

def isInline : TokenKind → Bool
  | .text | .quotedString | .placeholder => true
  | _ => false

def describe : TokenKind → String
  | .block b => s!"'{b.name}'"
  | .step k => s!"'{k.name}'"
  | .tag => "tag"
  | .comment => "comment"
  | .tableRow => "table row"
  | .docString => "doc string"
  | .text => "text"
  | .quotedString => "quoted string"
  | .placeholder => "placeholder"
  | .newline => "end of line"
  | .eof => "end of input"

end TokenKind

structure Token where
  kind : TokenKind
  /-- What the token carries: a keyword as it is written, a tag with its `@`, the content of a quoted
  string. -/
  text : String
  location : Location
  /-- The byte offset just past the token. -/
  stop : Nat
  /-- What is written after the opening delimiter of a doc string. -/
  contentType : Option String := none
deriving DecidableEq, Repr

end Gherkin
