import Gherkin.Document

/-!
# Walking a document

The nodes of a document from the top down and from left to right: a background before the scenarios,
the steps of an outline before its examples, a step before its table or doc string.
-/

namespace Gherkin

inductive NodeKind where
  | feature
  | background
  | scenario
  | outline
  | examples
  | step
  | table
  | docString
deriving DecidableEq, Repr

inductive Node where
  | feature (f : Feature)
  | background (b : Background)
  | scenario (s : Scenario)
  | outline (o : Outline)
  | examples (e : Examples)
  | step (s : Step)
  | table (t : Table)
  | docString (d : DocString)
deriving DecidableEq, Repr

def Node.kind : Node → NodeKind
  | .feature _ => .feature
  | .background _ => .background
  | .scenario _ => .scenario
  | .outline _ => .outline
  | .examples _ => .examples
  | .step _ => .step
  | .table _ => .table
  | .docString _ => .docString

/-! Each `walk` gives the node and, where `enter` holds of its kind, what is below it. -/

def Step.walk (enter : NodeKind → Bool) (s : Step) : List Node :=
  .step s :: if enter .step then
    s.table.toList.map Node.table ++ s.docString.toList.map Node.docString
  else []

def Examples.walk (enter : NodeKind → Bool) (e : Examples) : List Node :=
  .examples e :: if enter .examples then e.table.toList.map Node.table else []

def Background.walk (enter : NodeKind → Bool) (b : Background) : List Node :=
  .background b :: if enter .background then b.steps.flatMap (Step.walk enter) else []

def Scenario.walk (enter : NodeKind → Bool) (s : Scenario) : List Node :=
  .scenario s :: if enter .scenario then s.steps.flatMap (Step.walk enter) else []

def Outline.walk (enter : NodeKind → Bool) (o : Outline) : List Node :=
  .outline o :: if enter .outline then
    o.steps.flatMap (Step.walk enter) ++ o.examples.flatMap (Examples.walk enter)
  else []

def Child.walk (enter : NodeKind → Bool) : Child → List Node
  | .scenario s => s.walk enter
  | .outline o => o.walk enter

def Feature.walk (enter : NodeKind → Bool) (f : Feature) : List Node :=
  .feature f :: if enter .feature then
    f.background.toList.flatMap (Background.walk enter) ++ f.children.flatMap (Child.walk enter)
  else []

def Feature.nodes (f : Feature) : List Node := f.walk fun _ => true

end Gherkin
