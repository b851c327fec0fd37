import Gherkin.Registry

/-!
# Sessions

A session carries a registry and a scene through the calls of handlers and hooks.  It keeps the events
and the calls of the whole way, in the order in which they happened.
-/

namespace Gherkin

structure Session (World : Type) where
  registry : Registry World
  scene : Scene World
  events : List Event := []
  calls : List Call := []

namespace Session

variable {World : Type}

def log (s : Session World) (events : List Event) : Session World :=
  { s with events := s.events ++ events }

def register (s : Session World) (refusal? : Refusal) (x : Registration World) :
    Except RegistrationError (Session World) :=
  (s.registry.define refusal? x).map fun d => { s with registry := s.registry.push d }.log [d.event]

def find (s : Session World) (text : String) :
    Except ConversionError (Option (Match World)) × Session World :=
  let (found, registry) := s.registry.find text
  (found, { s with registry }.log (Contest.events text (s.registry.resolve text)))

/-! ## Calls -/

def forget (s : Session World) : Session World :=
  { s with scene := { s.scene with memory := .empty } }

def call (s : Session World) (callee : Callee) (effect : Effect World) :
    Except StepError Unit × Session World :=
  let (result, scene) := effect s.scene
  (result, { s with scene, calls := s.calls ++ [⟨callee, failure? result⟩] })

def execute (s : Session World) (text : String) (table : Option Table)
    (docString : Option DocString) : Except ExecutionError Unit × Session World :=
  match s.find text with
  | (.error e, s) => (.error (.conversion text e), s)
  | (.ok none, s) => (.error (.undefined text), s)
  | (.ok (some m), s) =>
    let pattern := m.winner.pattern.source
    let s := s.log [⟨.trace, "invoking step", [("text", text), ("pattern", pattern)]⟩]
    let (result, s) := s.call (.handler pattern) (m.winner.handler ⟨m.values, table, docString⟩)
    (result.mapError (.step text pattern), s)

def callHooks (s : Session World) (point : HookPoint) (index : Nat) :
    List (Effect World) → Except ExecutionError Unit × Session World
  | [] => (.ok (), s)
  | hook :: hooks =>
    match s.call (.hook point index) hook with
    | (.ok (), s) => callHooks s point (index + 1) hooks
    | (.error e, s) =>
      (.error (.hook point e),
        s.log [⟨.debug, "hook failed", [("hook", point.name), ("error", e.message)]⟩])

end Session

end Gherkin
