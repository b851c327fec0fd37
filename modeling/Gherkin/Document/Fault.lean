import Gherkin.Token.Scan

/-!
# Faults of documents

What can be wrong with a document: with its characters, with the order of its parts, or with parts
that do not fit together.
-/

namespace Gherkin

inductive OrderFault where
  /-- No feature starts; `found` is what the document starts with. -/
  | missingFeature (found : Option TokenKind)
  | secondFeature
  | tagsOnBackground
  | secondBackground
  | lateBackground
  | examplesOutsideOutline
  | stepOutsideScenario
  | unexpected (kind : TokenKind)
  | stepAfterExamples
  | tableWithoutStep
  | docStringWithoutStep
  | textAmongSteps
  | stepWithoutText (keyword : StepKeyword)
deriving DecidableEq, Repr

def OrderFault.message : OrderFault → String
  | .missingFeature none => "expected 'Feature:' header"
  | .missingFeature (some kind) => s!"expected 'Feature:' header but found {kind.describe}"
  | .secondFeature => "a document may contain only one Feature"
  | .tagsOnBackground => "tags cannot be applied to a Background"
  | .secondBackground => "a feature may have only one Background"
  | .lateBackground => "Background must come before the first scenario"
  | .examplesOutsideOutline => "Examples found outside a Scenario Outline"
  | .stepOutsideScenario => "steps must belong to a Background or Scenario"
  | .unexpected kind => s!"unexpected {kind.describe}"
  | .stepAfterExamples => "steps must come before Examples"
  | .tableWithoutStep => "data table must follow a step"
  | .docStringWithoutStep => "doc string must follow a step"
  | .textAmongSteps => "expected a step"
  | .stepWithoutText keyword => s!"expected step text after '{keyword.name}'"

inductive FitFault where
  | strayTags
  | outlineWithoutExamples (outline : String)
  | examplesWithoutTable
  | missingColumns (names : List String) (outline : String)
  | raggedRow (cells width : Nat)
deriving DecidableEq, Repr

def FitFault.message : FitFault → String
  | .strayTags => "tags must be followed by a Feature, Scenario, Scenario Outline or Examples"
  | .outlineWithoutExamples outline => s!"Scenario Outline '{outline}' has no Examples"
  | .examplesWithoutTable => "Examples block has no table"
  | .missingColumns names outline =>
    let written := String.intercalate ", " (names.map fun name => "<" ++ name ++ ">")
    s!"Examples table has no column for {written} used in Scenario Outline '{outline}'"
  | .raggedRow cells width => s!"table row has {cells} cells but the first row has {width}"

inductive DocumentFault where
  | lexical (fault : LexicalFault)
  | order (fault : OrderFault)
  | fit (fault : FitFault)
deriving DecidableEq, Repr

namespace DocumentFault

def sort : DocumentFault → String
  | .lexical _ => "lex"
  | .order _ => "syntax"
  | .fit _ => "validation"

def message : DocumentFault → String
  | .lexical fault => fault.message
  | .order fault => fault.message
  | .fit fault => fault.message

end DocumentFault

structure ParseError where
  fault : DocumentFault
  location : Location
deriving DecidableEq, Repr

namespace ParseError

def ofLexical (e : LexicalError) : ParseError := ⟨.lexical e.fault, e.location⟩

def message (e : ParseError) : String := e.fault.message

def render (e : ParseError) : String :=
  s!"{e.fault.sort} error at {e.location.render}: {e.message}"

def renderAll (errors : List ParseError) : String :=
  String.intercalate "\n" (errors.map render)

end ParseError

end Gherkin
