import Gherkin.Document
import Gherkin.Value

/-!
# Arguments of steps

What a step hands to its handler: the captured values, and its table or doc string.
-/

namespace Gherkin

structure Arguments where
  values : List Value
  table : Option Table := none
  docString : Option DocString := none
deriving DecidableEq, Repr

inductive ArgumentError where
  | missing (index count : Nat)
  | mismatch (index : Nat) (expected found : ValueKind)
  | missingTable
  | missingDocString
deriving DecidableEq, Repr

def ArgumentError.message : ArgumentError → String
  | .missing index count => s!"missing argument {index}: the step captured {count}"
  | .mismatch index expected found => s!"argument {index} is {found.name}, not {expected.name}"
  | .missingTable => "the step has no data table"
  | .missingDocString => "the step has no doc string"

namespace Arguments

def value (a : Arguments) (index : Nat) : Except ArgumentError Value :=
  match a.values[index]? with
  | some v => .ok v
  | none => .error (.missing index a.values.length)

def get (a : Arguments) (index : Nat) (kind : ValueKind) : Except ArgumentError Value :=
  match a.value index with
  | .error e => .error e
  | .ok v => if v.kind = kind then .ok v else .error (.mismatch index kind v.kind)

def getTable (a : Arguments) : Except ArgumentError Table :=
  match a.table with
  | some t => .ok t
  | none => .error .missingTable

def getDocString (a : Arguments) : Except ArgumentError DocString :=
  match a.docString with
  | some d => .ok d
  | none => .error .missingDocString

end Arguments

end Gherkin
