import Gherkin.Document.Fault
import Gherkin.Outline
import Gherkin.Text.Bytes

/-!
# What tokens say

The sorts of tokens that matter to a reader, and what one token tells by itself: where things are.  Names,
descriptions and the texts of steps are taken from the source.
-/

namespace Gherkin

namespace Reader

def isGap (t : Token) : Bool := t.kind = .newline || t.kind = .comment

/-- A token at which reading can go on after a fault. -/
def isAnchor (t : Token) : Bool :=
  match t.kind with
  | .block .scenario | .block .scenarioOutline | .block .examples | .block .background | .tag => true
  | _ => false

/-! ## Text from the source -/

def textFrom (source : List Char) (offset : Nat) : String :=
  let rest := (Text.dropBytes? offset source).getD []
  String.ofList (Text.trim (rest.takeWhile (· ≠ '\n')))

def titleOf (source : List Char) (t : Token) : String := textFrom source t.stop

def optionalTitleOf (source : List Char) (t : Token) : Option String :=
  let title := titleOf source t
  if title.isEmpty then none else some title

def joinLines (lines : List String) : Option String :=
  if lines.isEmpty then none else some (String.intercalate "\n" lines)

/-! ## Faults -/

def order (fault : OrderFault) (loc : Location) : ParseError := ⟨.order fault, loc⟩

def fit (fault : FitFault) (loc : Location) : ParseError := ⟨.fit fault, loc⟩

/-! ## Tags -/

/-- The tags before a part of a document, each once, and where the first stands. -/
structure TagRun where
  tags : List String
  location : Option Location

def TagRun.add (run : TagRun) (t : Token) : TagRun where
  tags := if t.text ∈ run.tags then run.tags else run.tags ++ [t.text]
  location := run.location.or (some t.location)

def TagRun.stray (run : TagRun) : List ParseError :=
  (run.location.map (fit .strayTags)).toList

/-! ## Tables and doc strings -/

def docString (source : List Char) (t : Token) : DocString where
  content := t.text
  contentType := t.contentType
  delimiter :=
    match (Text.dropBytes? t.location.offset source).bind
        (Text.dropWord? Delimiter.backticks.chars) with
    | some _ => .backticks
    | none => .doubleQuotes

def raggedRow? (width : Nat) (t : Token) : Option ParseError :=
  let cells := (Table.splitCells t.text).length
  if cells = width then none else some (fit (.raggedRow cells width) t.location)

/-! ## Checks -/

/-- An outline needs examples, every block a table, and the table a column for each placeholder. -/
def checkOutline (o : Outline) : List ParseError :=
  if o.examples.isEmpty then [fit (.outlineWithoutExamples o.name) o.location]
  else o.examples.filterMap fun e =>
    if e.table.isNone then some (fit .examplesWithoutTable e.location)
    else
      let missing := o.missing e
      if missing.isEmpty then none else some (fit (.missingColumns missing o.name) e.location)

def backgroundFault? (f : Feature) : Option OrderFault :=
  if f.background.isSome then some .secondBackground
  else if !f.children.isEmpty then some .lateBackground
  else none

def strayFault (kind : TokenKind) : OrderFault :=
  if kind = .block .feature then .secondFeature
  else if kind.isStep then .stepOutsideScenario
  else .unexpected kind

end Reader

structure Parsed where
  feature : Feature
  errors : List ParseError
deriving DecidableEq, Repr

end Gherkin
