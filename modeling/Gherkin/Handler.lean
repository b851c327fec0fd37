import Gherkin.Arguments
import Gherkin.Memory

/-!
# Handlers and hooks

A handler does the work of a step, and hooks run around steps and scenarios.  All of them see the
memory of the scenario and a world beyond it, change both, and may fail.
-/

namespace Gherkin

inductive StepError where
  | memory (e : MemoryError)
  | argument (e : ArgumentError)
  | assertion (message : String)
  | other (message : String)
deriving DecidableEq, Repr

def StepError.message : StepError → String
  | .memory e => e.message
  | .argument e => e.message
  | .assertion message => s!"assertion failed: {message}"
  | .other message => message

structure Scene (World : Type) where
  memory : Memory
  world : World

abbrev Effect (World : Type) := Scene World → Except StepError Unit × Scene World

abbrev Handler (World : Type) := Arguments → Effect World

def failure? {ε : Type} : Except ε Unit → Option ε
  | .ok () => none
  | .error e => some e

inductive HookPoint where
  | beforeScenario
  | afterScenario
  | beforeStep
  | afterStep
deriving DecidableEq, Repr

def HookPoint.name : HookPoint → String
  | .beforeScenario => "before-scenario"
  | .afterScenario => "after-scenario"
  | .beforeStep => "before-step"
  | .afterStep => "after-step"

/-- The hooks of a run, at each point in the order in which they are called. -/
structure Hooks (World : Type) where
  beforeScenario : List (Scenario → Effect World) := []
  afterScenario : List (Scenario → Effect World) := []
  beforeStep : List (Step → Effect World) := []
  afterStep : List (Step → Effect World) := []

inductive ExecutionError where
  | undefined (text : String)
  | conversion (text : String) (cause : ConversionError)
  | step (text pattern : String) (cause : StepError)
  | hook (point : HookPoint) (cause : StepError)
deriving DecidableEq, Repr

def ExecutionError.message : ExecutionError → String
  | .undefined text => s!"undefined step: {text}"
  | .conversion text cause => s!"step '{text}' matched but {cause.message}"
  | .step text _ cause => s!"step '{text}' failed: {cause.message}"
  | .hook point cause => s!"{point.name} hook failed: {cause.message}"

inductive Callee where
  | handler (pattern : String)
  /-- The hook with the given number at a point. -/
  | hook (point : HookPoint) (index : Nat)
deriving DecidableEq, Repr

structure Call where
  callee : Callee
  error : Option StepError
deriving DecidableEq, Repr

end Gherkin
