import Gherkin.Pattern.Part

/-!
# Specificity

Of several patterns that match a text the most specific one is meant: the one with more literal
characters, or else with fewer slots, or else with more typed slots.
-/

namespace Gherkin

structure Specificity where
  literals : Nat := 0
  slots : Nat := 0
  typed : Nat := 0
deriving DecidableEq, Repr

namespace Specificity

/-- Counts a part.  A brace that opens or closes nothing is literal text. -/
def count (score : Specificity) : Part → Specificity
  | .literal _ => { score with literals := score.literals + 1 }
  | .slot s =>
    { score with slots := score.slots + 1, typed := score.typed + if s.isTyped then 1 else 0 }
  | .strayOpening _ | .strayClosing _ => { score with literals := score.literals + 1 }

/-- The specificity of a pattern that need not be balanced. -/
def ofSource (source : String) : Except PatternError Specificity :=
  (Part.read 0 source.toList).map fun parts => parts.foldl count {}

def exceeds (a b : Specificity) : Bool :=
  b.literals < a.literals || (a.literals == b.literals &&
    (a.slots < b.slots || (a.slots == b.slots && b.typed < a.typed)))

/-- The positions in a list of the specificities that are there, the most specific first; of equals
the earlier comes first. -/
def ranking (scores : List (Option Specificity)) : List Nat :=
  let placed := scores.zipIdx.filterMap fun (score, i) => score.map (·, i)
  (placed.mergeSort fun (a, _) (b, _) => !b.exceeds a).map Prod.snd

end Specificity

end Gherkin
