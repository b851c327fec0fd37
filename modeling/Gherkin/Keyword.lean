/-!
# Keywords

A line of a document may open a block, such as a scenario, or be a step.  A step written with a
conjunction stands for the keyword of the steps before it.
-/

namespace Gherkin

inductive Block where
  | feature
  | background
  | scenario
  | scenarioOutline
  | examples
deriving DecidableEq, Repr

def Block.name : Block → String
  | .feature => "Feature"
  | .background => "Background"
  | .scenario => "Scenario"
  | .scenarioOutline => "Scenario Outline"
  | .examples => "Examples"

/-- The keywords a step is written with; `thus` is written `Then`. -/
inductive StepKeyword where
  | given
  | when
  | thus
  | and
  | but
deriving DecidableEq, Repr

namespace StepKeyword

def name : StepKeyword → String
  | .given => "Given"
  | .when => "When"
  | .thus => "Then"
  | .and => "And"
  | .but => "But"

/-- A conjunction continues the step before it. -/
def isConjunction : StepKeyword → Bool
  | .and | .but => true
  | _ => false

/-- The keyword that `k` stands for, where `last` is the last one before it that is no conjunction. -/
def resolve (last : Option StepKeyword) (k : StepKeyword) : StepKeyword :=
  if k.isConjunction then last.getD .given else k

def follow (last : Option StepKeyword) (k : StepKeyword) : Option StepKeyword :=
  if k.isConjunction then last else some k

def resolveAll (last : Option StepKeyword) : List StepKeyword → List StepKeyword
  | [] => []
  | k :: ks => resolve last k :: resolveAll (follow last k) ks

end StepKeyword

end Gherkin
