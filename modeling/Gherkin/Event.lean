import Gherkin.Document.Reader

/-!
# Events

What the library reports about its own work while it answers.  An event has a level, a message and
named fields; the log of a call is the list of its events in the order in which they happened.
-/

namespace Gherkin

inductive Level where
  | error
  | warn
  | info
  | debug
  | trace
deriving DecidableEq, Repr

namespace Level

def name : Level → String
  | .error => "error"
  | .warn => "warn"
  | .info => "info"
  | .debug => "debug"
  | .trace => "trace"

def rank : Level → Nat
  | .error => 0
  | .warn => 1
  | .info => 2
  | .debug => 3
  | .trace => 4

end Level

structure Event where
  level : Level
  message : String
  fields : List (String × String) := []
deriving DecidableEq, Repr

def Event.upTo (level : Level) (events : List Event) : List Event :=
  events.filter fun e => e.level.rank ≤ level.rank

def LexicalError.event (e : LexicalError) : Event :=
  ⟨.debug, "lex error", [("location", e.location.render), ("message", e.message)]⟩

def ParseError.event (e : ParseError) : Event :=
  match e.fault with
  | .fit _ => ⟨.debug, "validation error", [("err", e.render)]⟩
  | _ => ⟨.debug, "syntax error; resynchronising", [("err", e.render)]⟩

def Parsed.events : Except (List ParseError) Parsed → List Event
  | .error errors => errors.map ParseError.event
  | .ok parsed =>
    parsed.errors.map ParseError.event ++
      [⟨.debug, "parsed feature",
        [("feature", parsed.feature.name),
          ("children", toString parsed.feature.children.length),
          ("errors", toString parsed.errors.length)]⟩]

end Gherkin
