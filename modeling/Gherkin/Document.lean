import Gherkin.DocString
import Gherkin.Keyword
import Gherkin.Table

/-!
# Documents

The tree of a document: a feature with its background, scenarios and outlines, their steps, and the
table or doc string of a step.  Every node keeps the location where it starts.
-/

namespace Gherkin

structure Step where
  keyword : StepKeyword
  text : String
  table : Option Table
  docString : Option DocString
  location : Location
deriving DecidableEq, Repr

structure Background where
  name : Option String
  description : Option String
  steps : List Step
  location : Location
deriving DecidableEq, Repr

structure Scenario where
  name : String
  description : Option String
  tags : List String
  steps : List Step
  location : Location
deriving DecidableEq, Repr

structure Examples where
  name : Option String
  description : Option String
  tags : List String
  table : Option Table
  location : Location
deriving DecidableEq, Repr

structure Outline where
  name : String
  description : Option String
  tags : List String
  steps : List Step
  examples : List Examples
  location : Location
deriving DecidableEq, Repr

inductive Child where
  | scenario (s : Scenario)
  | outline (o : Outline)
deriving DecidableEq, Repr

namespace Child

def name : Child → String
  | .scenario s => s.name
  | .outline o => o.name

def tags : Child → List String
  | .scenario s => s.tags
  | .outline o => o.tags

def location : Child → Location
  | .scenario s => s.location
  | .outline o => o.location

end Child

structure Feature where
  name : String
  description : Option String
  tags : List String
  background : Option Background
  children : List Child
  location : Location
deriving DecidableEq, Repr

namespace Feature

def scenarios (f : Feature) : List Scenario :=
  f.children.filterMap fun
    | .scenario s => some s
    | .outline _ => none

def outlines (f : Feature) : List Outline :=
  f.children.filterMap fun
    | .scenario _ => none
    | .outline o => some o

end Feature

end Gherkin
