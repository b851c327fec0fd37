import Gherkin.Value

/-!
# Memories

The steps of a scenario share a memory of values under keys.  Every key is there at most once.
-/

namespace Gherkin

structure Memory where
  entries : List (String × Value) := []
deriving DecidableEq, Repr

inductive MemoryError where
  | missing (key : String)
  | mismatch (key : String) (expected found : ValueKind)
deriving DecidableEq, Repr

def MemoryError.message : MemoryError → String
  | .missing key => s!"key not found: {key}"
  | .mismatch key expected found =>
    s!"type mismatch for key '{key}': expected {expected.name}, found {found.name}"

namespace Memory

def empty : Memory := {}

def get? (m : Memory) (key : String) : Option Value := m.entries.lookup key

def contains (m : Memory) (key : String) : Bool := (m.get? key).isSome

def size (m : Memory) : Nat := m.entries.length

def insert (m : Memory) (key : String) (v : Value) : Memory :=
  ⟨m.entries.filter (fun entry => entry.1 ≠ key) ++ [(key, v)]⟩

def erase (m : Memory) (key : String) : Memory :=
  ⟨m.entries.filter fun entry => entry.1 ≠ key⟩

def value (m : Memory) (key : String) : Except MemoryError Value :=
  match m.get? key with
  | some v => .ok v
  | none => .error (.missing key)

def get (m : Memory) (key : String) (kind : ValueKind) : Except MemoryError Value :=
  match m.value key with
  | .error e => .error e
  | .ok v => if v.kind = kind then .ok v else .error (.mismatch key kind v.kind)

def getD (m : Memory) (key : String) (default : Value) : Except MemoryError Value :=
  if m.contains key then m.get key default.kind else .ok default

def sorted (m : Memory) : List (String × Value) :=
  m.entries.mergeSort fun a b => !decide (b.1 < a.1)

end Memory

end Gherkin
