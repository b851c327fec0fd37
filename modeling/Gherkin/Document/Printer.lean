import Gherkin.Document.Nodes

/-!
# Printing documents

A node is printed as lines, each indented by two spaces for every level below the node.  Table columns
are padded, and blank lines stand before the background, the scenarios and the blocks of examples.
-/

namespace Gherkin

/-- Lines with their levels of indentation. -/
abbrev Printed := List (Nat × List Char)

namespace Printed

def lineChars (level : Nat) (cs : List Char) : List Char :=
  if cs.isEmpty then ['\n'] else List.replicate (2 * level) ' ' ++ cs ++ ['\n']

def text (ls : Printed) : String :=
  String.ofList (ls.flatMap fun (level, cs) => lineChars level cs)

def indent (ls : Printed) : Printed := ls.map fun (level, cs) => (level + 1, cs)

def blank : Printed := [(0, [])]

def tagLine (tags : List String) : Printed :=
  if tags.isEmpty then [] else [(0, (String.intercalate " " tags).toList)]

def header (keyword name : String) : Printed :=
  [(0, keyword.toList ++ if name.isEmpty then [':'] else [':', ' '] ++ name.toList)]

def prose (d : Option String) : Printed :=
  d.toList.flatMap fun d => (Text.lines d.toList).map fun l => (1, l.body)

end Printed

open Printed

def Table.print (t : Table) : Printed := t.writtenRows.map fun row => (0, row)

def DocString.print (d : DocString) : Printed :=
  let content := (d.content.toList.splitOn '\n').map fun cs => (0, d.delimiter.escape cs)
  (0, d.delimiter.chars ++ (d.contentType.getD "").toList) :: content ++ [(0, d.delimiter.chars)]

def Step.print (s : Step) : Printed :=
  (0, s.keyword.name.toList ++ ' ' :: s.text.toList) ::
    indent (s.table.toList.flatMap Table.print ++ s.docString.toList.flatMap DocString.print)

def Background.print (b : Background) : Printed :=
  header Block.background.name (b.name.getD "") ++ prose b.description ++
    indent (b.steps.flatMap Step.print)

def Scenario.print (s : Scenario) : Printed :=
  tagLine s.tags ++ header Block.scenario.name s.name ++ prose s.description ++
    indent (s.steps.flatMap Step.print)

def Examples.print (e : Examples) : Printed :=
  tagLine e.tags ++ header Block.examples.name (e.name.getD "") ++ prose e.description ++
    indent (e.table.toList.flatMap Table.print)

def Outline.print (o : Outline) : Printed :=
  tagLine o.tags ++ header Block.scenarioOutline.name o.name ++ prose o.description ++
    indent (o.steps.flatMap Step.print ++ o.examples.flatMap fun e => blank ++ e.print)

def Child.print : Child → Printed
  | .scenario s => s.print
  | .outline o => o.print

def Feature.print (f : Feature) : Printed :=
  tagLine f.tags ++ header Block.feature.name f.name ++ prose f.description ++
    indent ((f.background.toList.flatMap fun b => blank ++ b.print) ++
      f.children.flatMap fun c => blank ++ c.print)

def Node.print : Node → Printed
  | .feature f => f.print
  | .background b => b.print
  | .scenario s => s.print
  | .outline o => o.print
  | .examples e => e.print
  | .step s => s.print
  | .table t => t.print
  | .docString d => d.print

def Node.render (n : Node) : String := n.print.text

def Feature.render (f : Feature) : String := f.print.text

end Gherkin
