import Gherkin.Text.Blank
import Gherkin.Token.Lexeme

/-!
# Symbols of tag expressions

An expression is written with tags, the words `and`, `or` and `not` in any case, and parentheses.
Every symbol carries the byte offset where it starts.
-/

namespace Gherkin.Tag

inductive Operator where
  | and
  | or
  | not
deriving DecidableEq, Repr

def Operator.name : Operator → String
  | .and => "and"
  | .or => "or"
  | .not => "not"

inductive Symbol where
  /-- A tag with its `@`. -/
  | tag (name : String)
  | operator (op : Operator)
  | opening
  | closing
deriving DecidableEq, Repr

def Symbol.describe : Symbol → String
  | .tag name => name
  | .operator op => s!"'{op.name}'"
  | .opening => "'('"
  | .closing => "')'"

inductive ExpressionFault where
  | missingTagName
  | unexpectedCharacter (c : Char)
  | unexpectedWord (word : String)
  | unexpectedSymbol (s : Symbol)
  | missingOperand
  | missingOperandAfter (op : Operator)
  | missingOperandBefore (s : Symbol)
  | missingClosing
deriving DecidableEq, Repr

def ExpressionFault.reason : ExpressionFault → String
  | .missingTagName => "expected tag name after '@'"
  | .unexpectedCharacter c => s!"unexpected character '{c}'"
  | .unexpectedWord word => s!"unexpected identifier '{word}'"
  | .unexpectedSymbol s => s!"unexpected token {s.describe}"
  | .missingOperand => "expected tag or '('"
  | .missingOperandAfter op => s!"expected tag or '(' after '{op.name}'"
  | .missingOperandBefore s => s!"expected tag or '(' but found {s.describe}"
  | .missingClosing => "missing ')'"

structure ExpressionError where
  offset : Nat
  fault : ExpressionFault
deriving DecidableEq, Repr

def ExpressionError.message (e : ExpressionError) : String :=
  s!"invalid tag expression at byte {e.offset}: {e.fault.reason}"

def operator? (word : List Char) : Option Operator :=
  match String.ofList (word.map Char.toLower) with
  | "and" => some .and
  | "or" => some .or
  | "not" => some .not
  | _ => none

/-- The symbols of a text: those before the first place that holds none, and that place, which is the
end of the text unless it comes with a fault. -/
structure Symbols where
  placed : List (Nat × Symbol)
  stop : Nat
  fault : Option ExpressionFault

def Symbols.cons (offset : Nat) (s : Symbol) (rest : Symbols) : Symbols :=
  { rest with placed := (offset, s) :: rest.placed }

def symbols (offset : Nat) : List Char → Symbols
  | [] => ⟨[], offset, none⟩
  | c :: cs =>
    if Text.isBlank c then symbols (offset + c.utf8Size) cs
    else if c = '(' then (symbols (offset + 1) cs).cons offset .opening
    else if c = ')' then (symbols (offset + 1) cs).cons offset .closing
    else if c = '@' then
      let name := cs.takeWhile Lexeme.isTagCharacter
      have : (cs.dropWhile Lexeme.isTagCharacter).length ≤ cs.length :=
        (List.dropWhile_suffix _).length_le
      if name.isEmpty then ⟨[], offset + 1, some .missingTagName⟩
      else (symbols (offset + 1 + name.length) (cs.dropWhile Lexeme.isTagCharacter)).cons offset
        (.tag (String.ofList ('@' :: name)))
    else if c.isAlpha then
      let word := c :: cs.takeWhile Char.isAlpha
      have : (cs.dropWhile Char.isAlpha).length ≤ cs.length := (List.dropWhile_suffix _).length_le
      match operator? word with
      | some op =>
        (symbols (offset + word.length) (cs.dropWhile Char.isAlpha)).cons offset (.operator op)
      | none => ⟨[], offset, some (.unexpectedWord (String.ofList word))⟩
    else ⟨[], offset, some (.unexpectedCharacter c)⟩
termination_by cs => cs.length

end Gherkin.Tag
