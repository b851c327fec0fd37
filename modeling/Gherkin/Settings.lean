import Gherkin.Event
import Gherkin.Tag.Expression

/-!
# Settings of a run

The settings are read from named variables, such as those of an environment, and may be changed
afterwards.
-/

namespace Gherkin

structure Settings where
  logLevel : Level := .warn
  /-- Report which steps are defined, and call nothing. -/
  dryRun : Bool := false
  /-- Count undefined steps against the success of the run. -/
  strict : Bool := false
  /-- Run nothing after a scenario has failed. -/
  failFast : Bool := false
  /-- Run only the scenarios that satisfy the expression. -/
  tags : Option Tag.Expression := none

inductive Setting where
  | logLevel
  | dryRun
  | strict
  | failFast
  | tags
deriving DecidableEq, Repr

def Setting.key : Setting → String
  | .logLevel => "STEPWISE_LOG_LEVEL"
  | .dryRun => "STEPWISE_DRY_RUN"
  | .strict => "STEPWISE_STRICT"
  | .failFast => "STEPWISE_FAIL_FAST"
  | .tags => "STEPWISE_TAGS"

inductive SettingsError where
  | invalid (setting : Setting) (value expected : String)
  | expression (e : Tag.ExpressionError)
deriving DecidableEq, Repr

def SettingsError.message : SettingsError → String
  | .invalid setting value expected =>
    s!"invalid value '{value}' for {setting.key}: expected {expected}"
  | .expression e => e.message

namespace Settings

/-- The word of a value: blanks around it do not count, nor does the case of ASCII letters.  No other
letter has an ASCII letter of a known word for its lower case. -/
def word (value : String) : String :=
  String.ofList ((Text.trim value.toList).map Char.toLower)

def parseLevel (value : String) : Except SettingsError Level :=
  match word value with
  | "trace" => .ok .trace
  | "debug" => .ok .debug
  | "info" => .ok .info
  | "warn" | "warning" => .ok .warn
  | "error" => .ok .error
  | _ => .error (.invalid .logLevel value "one of trace, debug, info, warn, error")

def parseFlag (setting : Setting) (value : String) : Except SettingsError Bool :=
  match word value with
  | "1" | "true" | "yes" | "on" => .ok true
  | "0" | "false" | "no" | "off" | "" => .ok false
  | _ => .error (.invalid setting value "a boolean (1/0, true/false, yes/no, on/off)")

def parseTags (value : String) : Except SettingsError Tag.Expression :=
  (Tag.Expression.parse value).mapError .expression

/-- The settings of the variables; one that is not set leaves the default, as does a blank tag
expression. -/
def load (lookup : String → Option String) : Except SettingsError Settings := do
  let level ← (lookup Setting.logLevel.key).mapM parseLevel
  let tags := (lookup Setting.tags.key).filter fun value => !(Text.trim value.toList).isEmpty
  let tags ← tags.mapM parseTags
  let flag (setting : Setting) : Except SettingsError Bool :=
    ((lookup setting.key).mapM (parseFlag setting)).map (·.getD false)
  let dryRun ← flag .dryRun
  let strict ← flag .strict
  let failFast ← flag .failFast
  return { logLevel := level.getD .warn, dryRun, strict, failFast, tags }

structure Overrides where
  logLevel : Option Level := none
  dryRun : Option Bool := none
  strict : Option Bool := none
  failFast : Option Bool := none
  tags : Option Tag.Expression := none

def override (s : Settings) (o : Overrides) : Settings where
  logLevel := o.logLevel.getD s.logLevel
  dryRun := o.dryRun.getD s.dryRun
  strict := o.strict.getD s.strict
  failFast := o.failFast.getD s.failFast
  tags := o.tags.or s.tags

def selects (s : Settings) (tags : List String) : Bool := s.tags.all fun e => e.accepts tags

end Settings

end Gherkin
