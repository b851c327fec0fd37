import Gherkin.Handler

/-!
# Scripts

A script is a handler or hook that is given as a list of actions.  It stops at the first action that
fails, which changes nothing.  The world of scripts is a log of lines.
-/

namespace Gherkin

inductive Action where
  | set (key : String) (v : Value)
  /-- Remembers an argument, which has to be of the kind if one is given. -/
  | setArgument (key : String) (index : Nat) (kind : Option ValueKind)
  | get (key : String) (kind : Option ValueKind)
  /-- Adds an argument to the number under the key. -/
  | add (key : String) (index : Nat)
  /-- Fails unless an argument is the number under the key. -/
  | expect (key : String) (index : Nat)
  | remove (key : String)
  | clear
  /-- Remembers how many rows of the table hold data. -/
  | countRows (key : String)
  /-- Remembers the content of the doc string. -/
  | setDocString (key : String)
  | fail (message : String)
  | raise (message : String)
  /-- Logs a message in which every `$` stands for the subject. -/
  | log (message : String)
  | logValues
  | logMemory
deriving DecidableEq, Repr

def Memory.render (m : Memory) : String :=
  ";".intercalate (m.sorted.map fun (key, v) => key ++ "=" ++ v.render)

/-- A message with the subject in the place of every `$`. -/
def Action.about (subject message : String) : String :=
  String.ofList (message.toList.flatMap fun c => if c = '$' then subject.toList else [c])

namespace Scene

abbrev Logged := Scene (List String)

def write (s : Logged) (line : String) : Logged := { s with world := s.world ++ [line] }

def remember (s : Logged) (key : String) (v : Value) : Logged :=
  { s with memory := s.memory.insert key v }

end Scene

namespace Action

def argument (a : Arguments) (index : Nat) (kind : Option ValueKind) : Except StepError Value :=
  (match kind with
  | some kind => a.get index kind
  | none => a.value index).mapError .argument

def recollect (m : Memory) (key : String) (kind : Option ValueKind) : Except StepError Value :=
  (match kind with
  | some kind => m.get key kind
  | none => m.value key).mapError .memory

def sum? : Value → Value → Option Value
  | .int a, .int b => Value.ofInt? (a.toInt + b.toInt)
  | _, _ => none

def apply (subject : String) (a : Arguments) (s : Scene.Logged) :
    Action → Except StepError Scene.Logged
  | set key v => .ok (s.remember key v)
  | setArgument key index kind => return s.remember key (← argument a index kind)
  | get key kind => return (← recollect s.memory key kind, s).2
  | add key index => do
    let remembered ← (s.memory.getD key (.int 0)).mapError .memory
    let added ← argument a index (some .int)
    match sum? remembered added with
    | some v => return s.remember key v
    | none => throw (.assertion "overflow")
  | expect key index => do
    let expected ← argument a index (some .int)
    let found ← recollect s.memory key (some .int)
    if expected = found then return s
    throw (.assertion s!"expected {expected.render}, found {found.render}")
  | remove key => .ok { s with memory := s.memory.erase key }
  | clear => .ok { s with memory := .empty }
  | countRows key => do
    let table ← a.getTable.mapError .argument
    return s.remember key (.int (Int64.ofNat table.dataRows.length))
  | setDocString key => do
    let docString ← a.getDocString.mapError .argument
    return s.remember key (.string docString.content)
  | fail message => .error (.assertion message)
  | raise message => .error (.other message)
  | log message => .ok (s.write (about subject message))
  | logValues => .ok (s.write ("|".intercalate (a.values.map Value.render)))
  | logMemory => .ok (s.write s.memory.render)

def applyAll (subject : String) (a : Arguments) : List Action → Effect (List String)
  | [], s => (.ok (), s)
  | action :: actions, s =>
    match action.apply subject a s with
    | .ok s => applyAll subject a actions s
    | .error e => (.error e, s)

end Action

structure Script where
  actions : List Action
  /-- The only subject for which the script does anything. -/
  only : Option String := none
deriving DecidableEq, Repr

namespace Script

def effect (script : Script) (subject : String) (a : Arguments) : Effect (List String) :=
  Action.applyAll subject a (if script.only.all (· = subject) then script.actions else [])

def handler (script : Script) : Handler (List String) := script.effect ""

def hook (script : Script) (subject : String) : Effect (List String) :=
  script.effect subject { values := [] }

def addTo (script : Script) (point : HookPoint) (hooks : Hooks (List String)) :
    Hooks (List String) :=
  match point with
  | .beforeScenario =>
    { hooks with beforeScenario := hooks.beforeScenario ++ [fun s => script.hook s.name] }
  | .afterScenario =>
    { hooks with afterScenario := hooks.afterScenario ++ [fun s => script.hook s.name] }
  | .beforeStep => { hooks with beforeStep := hooks.beforeStep ++ [fun s => script.hook s.text] }
  | .afterStep => { hooks with afterStep := hooks.afterStep ++ [fun s => script.hook s.text] }

end Script

end Gherkin
