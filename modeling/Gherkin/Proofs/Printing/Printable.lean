import Gherkin.Document.Reader
import Gherkin.Proofs.Printing.DocStrings
import Gherkin.Proofs.Tag.Distinct
import Gherkin.Proofs.Token.Layout

/-!
# Documents that can be printed

A tree is printable when its parts can be told apart in print: titles stand on one line, no line of a
description opens anything else, tables are square, and an outline passes its own check.  Reading a document
without a fault gives such a tree.
-/

namespace Gherkin

/-- A text that stands after a keyword on its line. -/
def IsTitle (s : String) : Prop := Text.trim s.toList = s.toList ∧ '\n' ∉ s.toList

def IsTag (s : String) : Prop :=
  ∃ name, s.toList = '@' :: name ∧ name ≠ [] ∧ ∀ c ∈ name, Lexeme.isTagCharacter c

def AreTags (tags : List String) : Prop := tags.Nodup ∧ ∀ s ∈ tags, IsTag s

structure IsProseLine (cs : List Char) : Prop where
  trimmed : Text.trim cs = cs
  oneLine : '\n' ∉ cs
  opens : Lexeme.OpensProse .english cs

/-- The lines of a description, of which neither the first nor the last is empty. -/
structure AreProse (ls : List (List Char)) : Prop where
  first : ∃ l more, ls = l :: more ∧ l ≠ []
  last : ls.getLast? ≠ some []
  lines : ∀ l ∈ ls, l ≠ [] → IsProseLine l

def IsDescription (d : String) : Prop :=
  ∃ ls, AreProse ls ∧ d.toList = List.intercalate ['\n'] ls

structure Table.Printable (t : Table) : Prop where
  rows : t.rows ≠ []
  square : ∀ row ∈ t.rows, row.length = t.width
  cells : [] ∉ t.rows
  trimmed : ∀ row ∈ t.rows, ∀ cell ∈ row, Text.trim cell.toList = cell.toList

structure DocString.Printable (d : DocString) : Prop where
  settled : d.delimiter.Settled d.content.toList
  noReturn : ∀ cs ∈ d.content.toList.splitOn '\n', cs.getLast? ≠ some '\r'
  contentType : ∀ s ∈ d.contentType, IsTitle s ∧ s ≠ ""

structure Step.Printable (s : Step) : Prop where
  text : IsTitle s.text
  nonempty : s.text ≠ ""
  table : ∀ t ∈ s.table, t.Printable
  docString : ∀ d ∈ s.docString, d.Printable
  single : s.table = none ∨ s.docString = none

structure Background.Printable (b : Background) : Prop where
  name : ∀ s ∈ b.name, IsTitle s ∧ s ≠ ""
  description : ∀ d ∈ b.description, IsDescription d
  steps : ∀ s ∈ b.steps, s.Printable

structure Scenario.Printable (s : Scenario) : Prop where
  name : IsTitle s.name
  description : ∀ d ∈ s.description, IsDescription d
  tags : AreTags s.tags
  steps : ∀ x ∈ s.steps, x.Printable

structure Examples.Printable (e : Examples) : Prop where
  name : ∀ s ∈ e.name, IsTitle s ∧ s ≠ ""
  description : ∀ d ∈ e.description, IsDescription d
  tags : AreTags e.tags
  table : ∀ t ∈ e.table, t.Printable

structure Outline.Printable (o : Outline) : Prop where
  name : IsTitle o.name
  description : ∀ d ∈ o.description, IsDescription d
  tags : AreTags o.tags
  steps : ∀ s ∈ o.steps, s.Printable
  examples : ∀ e ∈ o.examples, e.Printable
  check : Reader.checkOutline o = []

def Child.Printable : Child → Prop
  | .scenario s => s.Printable
  | .outline o => o.Printable

structure Feature.Printable (f : Feature) : Prop where
  name : IsTitle f.name
  description : ∀ d ∈ f.description, IsDescription d
  tags : AreTags f.tags
  background : ∀ b ∈ f.background, b.Printable
  children : ∀ c ∈ f.children, c.Printable

end Gherkin
