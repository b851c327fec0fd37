import Gherkin.Text.Blank
import Gherkin.Token

/-!
# Dialects

A dialect lists the spellings of the keywords and says whether the case of ASCII letters counts.
Where several spellings start a line the longest one is meant, and of equally long ones the one that
was listed first.
-/

namespace Gherkin

structure Spelling where
  kind : TokenKind
  text : String
deriving DecidableEq, Repr

structure Dialect where
  spellings : List Spelling
  caseSensitive : Bool
deriving DecidableEq, Repr

namespace Dialect

def english : Dialect where
  spellings := [
    ⟨.block .feature, "Feature"⟩,
    ⟨.block .background, "Background"⟩,
    ⟨.block .scenarioOutline, "Scenario Outline"⟩,
    ⟨.block .scenarioOutline, "Scenario Template"⟩,
    ⟨.block .scenario, "Scenario"⟩,
    ⟨.block .scenario, "Example"⟩,
    ⟨.block .examples, "Examples"⟩,
    ⟨.block .examples, "Scenarios"⟩,
    ⟨.step .given, "Given"⟩,
    ⟨.step .when, "When"⟩,
    ⟨.step .thus, "Then"⟩,
    ⟨.step .and, "And"⟩,
    ⟨.step .but, "But"⟩]
  caseSensitive := true

/-- Lists one more spelling.  A kind that is no keyword, a blank spelling and one already listed for
the kind change nothing. -/
def withSpelling (d : Dialect) (kind : TokenKind) (text : String) : Dialect :=
  if (kind.isBlock || kind.isStep) && !(Text.trim text.toList).isEmpty &&
      !d.spellings.contains ⟨kind, text⟩ then
    { d with spellings := d.spellings ++ [⟨kind, text⟩] }
  else d

def caseInsensitive (d : Dialect) : Dialect := { d with caseSensitive := false }

def spellingsOf (d : Dialect) (kind : TokenKind) : List String :=
  (d.spellings.filter (·.kind = kind)).map (·.text)

def place (s : Spelling) : List Spelling → List Spelling
  | [] => [s]
  | t :: ts => if t.text.length ≤ s.text.length then s :: t :: ts else t :: place s ts

/-- The spellings in the order they are tried, longest first. -/
def precedence (d : Dialect) : List Spelling := d.spellings.foldr place []

theorem mem_place {s t : Spelling} {ts : List Spelling} : s ∈ place t ts ↔ s = t ∨ s ∈ ts := by
  induction ts with
  | nil => simp [place]
  | cons u ts ih =>
    unfold place
    split
    · simp
    · rw [List.mem_cons, ih, List.mem_cons, or_left_comm]

theorem mem_precedence {d : Dialect} {s : Spelling} : s ∈ d.precedence ↔ s ∈ d.spellings := by
  unfold precedence
  induction d.spellings with
  | nil => simp
  | cons t ts ih => simp [mem_place, ih]

def sameCharacter (d : Dialect) (a b : Char) : Bool :=
  if d.caseSensitive then a = b else a.toLower = b.toLower

end Dialect

end Gherkin
