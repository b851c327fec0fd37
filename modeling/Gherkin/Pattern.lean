import Gherkin.Pattern.Specificity
import Gherkin.Regex.Reading

/-!
# Step patterns and what they match

A pattern is compiled to the text of a regular expression, anchored at both ends, in which every slot has one
group.  The expression that is built from this text is what matches, and the captures of a match are the texts
of the slots, strings without their quotes.
-/

namespace Gherkin

/-! ## The regular expression of a pattern -/

namespace Slot

def before (r : Regex) : Slot → Regex
  | .int => .seq (.group (.seq (.atom (.optional (.only '-'))) (.seq (Regex.several .digit) .empty))) r
  | .float => .seq (.group (.seq (.atom (.optional (.only '-'))) (.seq (Regex.several .digit)
      (.seq (.atom (.one (.only '.'))) (.seq (Regex.several .digit) .empty))))) r
  | .string => .seq (.atom (.one (.only '"'))) (.seq (.group (.seq (.atom (.many (.except '"'))) .empty))
      (.seq (.atom (.one (.only '"'))) r))
  | .word => .seq (.group (.seq (Regex.several .word) .empty)) r
  | .any | .custom _ => .seq (.group (.seq (Regex.several .inline) .empty)) r

end Slot

namespace Part

def toSlot? : Part → Option Slot
  | .slot s => some s
  | _ => none

/-- A part as it is written in a regular expression.  Here too a stray brace is literal text. -/
def regex : Part → List Char
  | .literal c => Regex.escape c
  | .slot s => s.regex.toList
  | .strayOpening _ => Regex.escape '{'
  | .strayClosing _ => Regex.escape '}'

def before (r : Regex) : Part → Regex
  | .literal c => .seq (.atom (.one (.only c))) r
  | .slot s => s.before r
  | .strayOpening _ => .seq (.atom (.one (.only '{'))) r
  | .strayClosing _ => .seq (.atom (.one (.only '}'))) r

def expression (parts : List Part) : Regex :=
  .seq (.atom .start) (parts.foldr (fun part r => part.before r) (.seq (.atom .stop) .empty))

def anchored (parts : List Part) : String := String.ofList ('^' :: (parts.flatMap regex ++ ['$']))

theorem puts_slot (s : Slot) : Regex.Puts s.regex.toList s.before := by
  intro cs r outer h
  obtain ⟨ss, hss, hr⟩ := Option.bind_eq_some_iff.1 h
  cases s <;>
    simp [Slot.regex, Slot.before, Regex.symbols?, Regex.isMeta, Regex.isOperator, Regex.reading?,
      Regex.Reading.before?, Regex.ofClass, hss, hr]

theorem puts_regex (part : Part) : Regex.Puts part.regex part.before := by
  cases part with
  | literal c => exact Regex.puts_escape c
  | slot s => exact puts_slot s
  | strayOpening offset => exact Regex.puts_escape '{'
  | strayClosing offset => exact Regex.puts_escape '}'

theorem puts_flatMap_regex (parts : List Part) :
    Regex.Puts (parts.flatMap regex) fun r => parts.foldr (fun part r => part.before r) r := by
  induction parts with
  | nil => exact Regex.puts_nil
  | cons part parts ih => exact (puts_regex part).append ih

theorem read?_anchored (parts : List Part) :
    Regex.read? (anchored parts) = some (expression parts) := by
  have hstop : (Regex.symbols? ['$']).bind Regex.reading? = some ⟨none, .seq (.atom .stop) .empty, []⟩ := rfl
  have hparts := puts_flatMap_regex parts ['$'] _ _ hstop
  obtain ⟨ss, hss, hr⟩ := Option.bind_eq_some_iff.1 hparts
  unfold Regex.read? anchored
  rw [String.toList_ofList]
  simp [Regex.symbols?, hss, Regex.reading?, hr, Regex.Reading.before?, expression]

end Part

structure CompiledPattern where
  regex : String
  slots : List Slot
  made : ∃ parts, regex = Part.anchored parts ∧ slots = parts.filterMap Part.toSlot?

def CompiledPattern.ofParts (parts : List Part) : CompiledPattern where
  regex := Part.anchored parts
  slots := parts.filterMap Part.toSlot?
  made := ⟨parts, rfl, rfl⟩

theorem CompiledPattern.known (p : CompiledPattern) : (Regex.read? p.regex).isSome := by
  obtain ⟨parts, hregex, -⟩ := p.made
  rw [hregex, Part.read?_anchored]
  rfl

inductive PatternFailure where
  | malformed (e : PatternError)
  /-- Its regular expression is refused. -/
  | refused (message : String)
deriving DecidableEq, Repr

def PatternFailure.message : PatternFailure → String
  | malformed e => e.message
  | refused message => message

structure Pattern where
  source : String
  compiled : CompiledPattern
  matcher : Matcher compiled.regex
  specificity : Specificity

namespace Pattern

/-- Compiles a pattern.  A malformed slot anywhere is reported before a stray brace. -/
def compile (source : String) : Except PatternError CompiledPattern :=
  match Part.read 0 source.toList with
  | .error e => .error e
  | .ok parts =>
    match Part.braceError? source.utf8ByteSize 0 parts with
    | some e => .error e
    | none => .ok (.ofParts parts)

def parse (refusal? : Refusal) (source : String) : Except PatternFailure Pattern := do
  let compiled ← (compile source).mapError .malformed
  -- A malformed pattern never gets as far as its regular expression.
  let matcher ← (Matcher.build refusal? compiled.regex compiled.known).mapError .refused
  let specificity ← (Specificity.ofSource source).mapError .malformed
  return ⟨source, compiled, matcher, specificity⟩

def regex (p : Pattern) : String := p.compiled.regex

def slots (p : Pattern) : List Slot := p.compiled.slots

def captures? (p : Pattern) (text : String) : Option (List String) :=
  (p.matcher.body.captures? text.toList).map (·.map String.ofList)

def accepts (p : Pattern) (text : String) : Bool := (p.captures? text).isSome

end Pattern

end Gherkin
