import Gherkin.Document.Parser
import Gherkin.Event

/-!
# Reading documents

A source is read into tokens, the tokens into a feature, and the faults of both stages are put in the
order of their locations.
-/

namespace Gherkin

/-- The errors in the order of their locations; of errors at one place the earlier stays first. -/
def ParseError.inOrder (errors : List ParseError) : List ParseError :=
  errors.mergeSort fun a b => a.location.le b.location

/-- The feature of a source and every fault of the source.  Without a feature the faults are all there
is. -/
def parse (source : String) : Except (List ParseError) Parsed :=
  let lexical := (lexicalErrors .english source).map ParseError.ofLexical
  match Parsed.ofTokens source (tokens .english source) with
  | .ok parsed => .ok { parsed with errors := ParseError.inOrder (parsed.errors ++ lexical) }
  | .error errors => .error (ParseError.inOrder (errors ++ lexical))

def parseEvents (dialect : Dialect) (source : String) : List Event :=
  (lexicalErrors dialect source).map LexicalError.event ++
    Parsed.events (Parsed.ofTokens source (tokens dialect source))

inductive FileFault where
  /-- There is no file, or it holds no UTF-8 text. -/
  | unreadable
  | unparsable (errors : List ParseError)
deriving DecidableEq, Repr

def parseFile (bytes : Option ByteArray) : Except FileFault Parsed :=
  match bytes.bind String.fromUTF8? with
  | none => .error .unreadable
  | some source => (parse source).mapError .unparsable

end Gherkin
