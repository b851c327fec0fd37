import Gherkin.Document
import Gherkin.Placeholder
import Gherkin.Tag

/-!
# Filling in outlines

An outline stands for one scenario per data row of its examples.  The placeholders in its steps name
columns, and a row's scenario has the row's cells in their place.
-/

namespace Gherkin

namespace Step

/-- The texts of a step that may hold placeholders: its own, its cells', its doc string's. -/
def texts (s : Step) : List String :=
  s.text :: ((s.table.map fun t => t.rows.flatten).getD [] ++
    (s.docString.map DocString.content).toList)

def mapTexts (f : String → String) (s : Step) : Step where
  keyword := s.keyword
  text := f s.text
  table := s.table.map fun t => { t with rows := t.rows.map (·.map f) }
  docString := s.docString.map fun d => { d with content := f d.content }
  location := s.location

end Step

namespace Placeholder

/-- The bindings of a row, longest key first. -/
def bindings (row : List (String × String)) : List Binding :=
  (row.mergeSort fun a b => decide (b.1.utf8ByteSize ≤ a.1.utf8ByteSize)).map fun (key, value) =>
    (key.toList, value.toList)

def fill (row : List (String × String)) (text : String) : String :=
  String.ofList (substitute (bindings row) text.toList)

end Placeholder

namespace Outline

/-- The names of the placeholders in the steps, each where it occurs first. -/
def parameters (o : Outline) : List String :=
  ((o.steps.flatMap Step.texts).flatMap fun text =>
    (Placeholder.names text.toList).map String.ofList).eraseDups

def missing (o : Outline) (e : Examples) : List String :=
  o.parameters.filter fun name => !e.table.any (·.hasColumn name)

def instantiate (o : Outline) (e : Examples) (row : List (String × String)) : Scenario where
  name := Placeholder.fill row o.name
  description := o.description
  tags := Tag.merge o.tags e.tags
  steps := o.steps.map (Step.mapTexts (Placeholder.fill row))
  location := o.location

def expandBlock (o : Outline) (e : Examples) : List Scenario :=
  match e.table with
  | some t => t.records.map (o.instantiate e)
  | none => []

def expand (o : Outline) : List Scenario := o.examples.flatMap o.expandBlock

end Outline

def Child.toScenarios : Child → List Scenario
  | .scenario s => [s]
  | .outline o => o.expand

namespace Feature

def allScenarios (f : Feature) : List Scenario := f.children.flatMap Child.toScenarios

def effectiveTags (f : Feature) (s : Scenario) : List String := Tag.merge f.tags s.tags

end Feature

end Gherkin
