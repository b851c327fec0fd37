/-!
# Locations

A location is a place in a source: its line and column, counted from one in characters, and its
offset, counted from zero in bytes.  All three follow from the characters before the place, so the
one way to move a location is to pass over characters.
-/

namespace Gherkin

structure Location where
  line : Nat
  column : Nat
  offset : Nat
deriving DecidableEq, Repr, Inhabited

namespace Location

def start : Location := ⟨1, 1, 0⟩

/-- The place after one more character: a line feed opens the next line. -/
def next (loc : Location) (c : Char) : Location :=
  if c = '\n' then ⟨loc.line + 1, 1, loc.offset + 1⟩
  else ⟨loc.line, loc.column + 1, loc.offset + c.utf8Size⟩

def past (loc : Location) (cs : List Char) : Location := cs.foldl next loc

@[simp] theorem past_nil (loc : Location) : loc.past [] = loc := rfl

@[simp] theorem past_cons (loc : Location) (c : Char) (cs : List Char) :
    loc.past (c :: cs) = (loc.next c).past cs := rfl

theorem past_append (loc : Location) (as bs : List Char) :
    loc.past (as ++ bs) = (loc.past as).past bs := by
  simp [past]

/-- Locations are ordered by line, then column, then offset. -/
def le (a b : Location) : Bool :=
  a.line < b.line || (a.line == b.line &&
    (a.column < b.column || (a.column == b.column && a.offset ≤ b.offset)))

def render (loc : Location) : String := s!"{loc.line}:{loc.column}"

end Location

end Gherkin
