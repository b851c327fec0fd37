import Gherkin.Event
import Gherkin.Handler
import Gherkin.Pattern

/-!
# Registries of steps

A registry lists step definitions, each a pattern with the handler for the steps that it matches.  The
most specific pattern that matches a step wins, and of equally specific ones the one that was
registered first.
-/

namespace Gherkin

structure Caller where
  file : String
  line : Nat
deriving DecidableEq, Repr

def Caller.text (c : Caller) : String := c.file ++ ":" ++ toString c.line

structure Registration (World : Type) where
  /-- The keyword the definition is registered for, which does not matter for matching. -/
  keyword : Option StepKeyword
  source : String
  handler : Handler World
  caller : Caller

structure Definition (World : Type) where
  pattern : Pattern
  keyword : Option StepKeyword
  handler : Handler World
  caller : Caller
  /-- Whether the definition has won a step. -/
  used : Bool := false

def Registration.definition {World : Type} (x : Registration World) (pattern : Pattern) :
    Definition World :=
  { pattern, keyword := x.keyword, handler := x.handler, caller := x.caller }

structure Registry (World : Type) where
  definitions : List (Definition World) := []
  /-- The patterns of the definitions, each with its position. -/
  index : List (String × Nat) := []

inductive RegistrationError where
  /-- The pattern is registered already, first at the given place. -/
  | duplicate (pattern : String) (first : String)
  | malformed (pattern : String) (cause : PatternFailure)
deriving DecidableEq, Repr

def RegistrationError.message : RegistrationError → String
  | .duplicate pattern first => s!"duplicate step definition '{pattern}', first registered at {first}"
  | .malformed pattern cause => s!"invalid step pattern '{pattern}': {cause.message}"

structure Contest (World : Type) where
  /-- The most specific definition so far, and its position. -/
  winner : Definition World
  index : Nat
  captures : List String
  /-- How many definitions are as specific as the winner. -/
  contenders : Nat

structure Match (World : Type) where
  winner : Definition World
  values : List Value

namespace Registry

variable {World : Type}

def patterns (r : Registry World) : List String := r.definitions.map (·.pattern.source)

def callerAt (r : Registry World) (i : Nat) : String :=
  ((r.definitions[i]?).map fun d => d.caller.text).getD ""

def define (r : Registry World) (refusal? : Refusal) (x : Registration World) :
    Except RegistrationError (Definition World) :=
  match r.index.lookup x.source with
  | some i => .error (.duplicate x.source (r.callerAt i))
  | none =>
    match Pattern.parse refusal? x.source with
    | .error cause => .error (.malformed x.source cause)
    | .ok pattern => .ok (x.definition pattern)

/-- Adds a definition at the end, and its pattern to the index. -/
def push (r : Registry World) (d : Definition World) : Registry World where
  definitions := r.definitions ++ [d]
  index := (d.pattern.source, r.definitions.length) :: r.index

def register (r : Registry World) (refusal? : Refusal) (x : Registration World) :
    Except RegistrationError (Registry World) :=
  (r.define refusal? x).map r.push

/-! ## Looking up -/

def contend (best : Option (Contest World)) (d : Definition World) (index : Nat)
    (captures : List String) : Contest World :=
  match best with
  | none => ⟨d, index, captures, 1⟩
  | some b =>
    if d.pattern.specificity.exceeds b.winner.pattern.specificity then ⟨d, index, captures, 1⟩
    else if b.winner.pattern.specificity.exceeds d.pattern.specificity then b
    -- Of equals the earlier one stays, so the order of registration decides between them.
    else { b with contenders := b.contenders + 1 }

def contest (text : String) (best : Option (Contest World)) (index : Nat) :
    List (Definition World) → Option (Contest World)
  | [] => best
  | d :: ds =>
    match d.pattern.captures? text with
    | some captures => contest text (some (contend best d index captures)) (index + 1) ds
    | none => contest text best (index + 1) ds

def resolve (r : Registry World) (text : String) : Option (Contest World) :=
  contest text none 0 r.definitions

def accepts (r : Registry World) (text : String) : Bool :=
  r.definitions.any fun d => d.pattern.accepts text

def markUsed (r : Registry World) (index : Nat) : Registry World :=
  { r with definitions := r.definitions.modify index fun d => { d with used := true } }

/-- The winning definition with the values of its slots, and the registry in which it is marked as
used. -/
def find (r : Registry World) (text : String) :
    Except ConversionError (Option (Match World)) × Registry World :=
  match r.resolve text with
  | none => (.ok none, r)
  | some c =>
    let values := Slot.values 0 (c.winner.pattern.slots.zip c.captures)
    -- The winner is marked even where its values do not convert.
    (values.map fun values => some ⟨c.winner, values⟩, r.markUsed c.index)

def unused (r : Registry World) : List (Definition World) := r.definitions.filter fun d => !d.used

end Registry

/-! ## Events -/

variable {World : Type}

def Definition.event (d : Definition World) : Event :=
  ⟨.debug, "registered step definition",
    [("pattern", d.pattern.source), ("regex", d.pattern.regex), ("file", d.caller.file),
      ("line", toString d.caller.line)]⟩

def Contest.events (text : String) : Option (Contest World) → List Event
  | none => [⟨.trace, "no step definition matches", [("text", text)]⟩]
  | some c =>
    if 1 < c.contenders then
      [⟨.warn, "ambiguous step; using the earliest equally specific definition",
        [("text", text), ("pattern", c.winner.pattern.source), ("contenders", toString c.contenders)]⟩]
    else []

end Gherkin
