import Gherkin.Decimal.Reading
import Gherkin.Decimal.Shortest
import Gherkin.Pattern.Part

/-!
# Values

A value is what a step captures or remembers.  The text of a slot becomes a value of the slot's kind,
or cannot be converted.
-/

namespace Gherkin

inductive ValueKind where
  | int
  | float
  | bool
  | string
deriving DecidableEq, Repr

def ValueKind.name : ValueKind → String
  | .int => "int"
  | .float => "float"
  | .bool => "bool"
  | .string => "string"

inductive Value where
  | int (i : Int64)
  | float (x : Binary64)
  | bool (b : Bool)
  | string (s : String)
deriving DecidableEq, Repr

namespace Value

def kind : Value → ValueKind
  | .int _ => .int
  | .float _ => .float
  | .bool _ => .bool
  | .string _ => .string

def render : Value → String
  | .int i => toString i.toInt
  | .float x => x.render
  | .bool b => if b then "true" else "false"
  | .string s => s

def ofInt? (i : Int) : Option Value :=
  if Int64.minValue.toInt ≤ i ∧ i ≤ Int64.maxValue.toInt then some (.int (Int64.ofInt i)) else none

end Value

structure ConversionError where
  /-- The position of the slot in its pattern. -/
  index : Nat
  text : String
  slot : Slot
deriving DecidableEq, Repr

def ConversionError.message (e : ConversionError) : String :=
  s!"cannot convert argument {e.index} ('{e.text}') to {e.slot.text}"

def Slot.value? (s : Slot) (text : String) : Option Value :=
  match s with
  | .int => (Decimal.int? text.toList).bind Value.ofInt?
  | .float => (Decimal.binary64? text.toList).map Value.float
  | _ => some (.string text)

def Slot.values (index : Nat) : List (Slot × String) → Except ConversionError (List Value)
  | [] => .ok []
  | (s, text) :: more =>
    match s.value? text with
    | none => .error ⟨index, text, s⟩
    | some v => (Slot.values (index + 1) more).map (v :: ·)

end Gherkin
