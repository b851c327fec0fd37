import Gherkin.Text.Blank
import Gherkin.Token.Lexeme

/-!
# Parts of a step pattern

A step pattern is literal text with slots in braces, such as `I have {int} cucumbers`.  A backslash
makes the next character literal and a doubled brace is a brace; any other brace is stray, and stray
braces must be balanced.
-/

namespace Gherkin

inductive Slot where
  | int
  | float
  | string
  | word
  /-- The slot without a name. -/
  | any
  /-- A name that says nothing about what is accepted. -/
  | custom (name : String)
deriving DecidableEq, Repr

namespace Slot

def ofName : String → Slot
  | "int" => .int
  | "float" => .float
  | "string" => .string
  | "word" => .word
  | "" => .any
  | name => .custom name

def name : Slot → String
  | .int => "int"
  | .float => "float"
  | .string => "string"
  | .word => "word"
  | .any => ""
  | .custom name => name

def text (s : Slot) : String := "\x7b" ++ s.name ++ "\x7d"

def isTyped : Slot → Bool
  | .any | .custom _ => false
  | _ => true

def isCustom : Slot → Bool
  | .custom _ => true
  | _ => false

/-- A slot is known by its name, and a custom one has none of the names of the others. -/
theorem ofName_eq_iff {s : Slot} {name : String} : ofName name = s ↔
    s.name = name ∧ (s.isCustom → name ∉ ["int", "float", "string", "word", ""]) := by
  constructor
  · rintro rfl
    unfold ofName
    split <;> simp_all [Slot.name, isCustom]
  · rintro ⟨rfl, hcustom⟩
    cases s with
    | custom name =>
      have hother : name ∉ ["int", "float", "string", "word", ""] := hcustom rfl
      simp only [List.mem_cons, List.not_mem_nil, or_false, not_or] at hother
      unfold ofName Slot.name
      split <;> simp_all
    | _ => rfl

def regex : Slot → String
  | .int => "(-?\\d+)"
  | .float => "(-?\\d+\\.\\d+)"
  | .string => "\"([^\"]*)\""
  | .word => "(\\w+)"
  | .any | .custom _ => "(.+)"

end Slot

inductive PatternFault where
  | invalidSlot (name : String)
  | unclosedSlot (name : String)
  | unmatchedBrace
  | unbalancedBraces
deriving DecidableEq, Repr

namespace PatternFault

def reason : PatternFault → String
  | .invalidSlot _ => "invalid placeholder in step pattern"
  | .unclosedSlot _ => "missing closing '\x7d' for placeholder"
  | .unmatchedBrace => "unmatched closing brace '\x7d' in step pattern"
  | .unbalancedBraces => "unbalanced braces in step pattern"

def slotName? : PatternFault → Option String
  | .invalidSlot name | .unclosedSlot name => some name
  | _ => none

end PatternFault

structure PatternError where
  fault : PatternFault
  /-- The byte offset in the pattern. -/
  offset : Nat
deriving DecidableEq, Repr

def PatternError.message (e : PatternError) : String :=
  let slot := match e.fault.slotName? with
    | some name => " in `\x7b" ++ name ++ "`"
    | none => ""
  e.fault.reason ++ slot ++ " at byte " ++ toString e.offset

/-- A part of a pattern; a stray brace keeps its byte offset. -/
inductive Part where
  | literal (c : Char)
  | slot (s : Slot)
  | strayOpening (offset : Nat)
  | strayClosing (offset : Nat)
deriving DecidableEq, Repr

namespace Part

/-- A brace starts a slot if a name or the closing brace follows it. -/
def startsSlot (c : Char) : Bool := c = '}' || c = '_' || c.isAlpha

/-- The slot whose brace stands at `offset` just before `cs`, and what follows it. -/
def slot? (offset : Nat) (cs : List Char) : Except PatternError (List Char × List Char) :=
  let name := cs.takeWhile Lexeme.isTagCharacter
  match cs.dropWhile Lexeme.isTagCharacter with
  | '}' :: rest => .ok (name, rest)
  | _ :: _ => .error ⟨.invalidSlot (String.ofList name), offset⟩
  | [] => .error ⟨.unclosedSlot (String.ofList name), offset⟩

theorem eq_append_of_slot? {offset : Nat} {cs name rest : List Char}
    (h : slot? offset cs = .ok (name, rest)) : cs = name ++ '}' :: rest := by
  unfold slot? at h
  dsimp only at h
  split at h
  · rename_i hdrop
    obtain ⟨rfl, rfl⟩ := Prod.mk.inj (Except.ok.inj h)
    rw [← hdrop, List.takeWhile_append_dropWhile]
  · cases h
  · cases h

def push (part : Part) (parts : Except PatternError (List Part)) : Except PatternError (List Part) :=
  parts.map (part :: ·)

/-- The parts of a pattern from the byte offset `offset` on, or its first malformed slot. -/
def read (offset : Nat) : List Char → Except PatternError (List Part)
  | [] => .ok []
  | ['\\'] => .ok [.literal '\\']
  | ['{'] => .ok [.strayOpening offset]
  | ['}'] => .ok [.strayClosing offset]
  | '\\' :: c :: cs => push (.literal c) (read (offset + 1 + c.utf8Size) cs)
  | '{' :: c :: cs =>
    if c = '{' then push (.literal '{') (read (offset + 2) cs)
    else if startsSlot c then
      match h : slot? offset (c :: cs) with
      | .ok (name, rest) =>
        have : rest.length ≤ cs.length := by
          have hlength := congrArg List.length (eq_append_of_slot? h)
          simp only [List.length_cons, List.length_append] at hlength
          omega
        push (.slot (.ofName (String.ofList name))) (read (offset + 2 + name.length) rest)
      | .error e => .error e
    -- The character behind a stray brace is read on its own: it may be a backslash.
    else push (.strayOpening offset) (read (offset + 1) (c :: cs))
  | '}' :: c :: cs =>
    if c = '}' then push (.literal '}') (read (offset + 2) cs)
    else push (.strayClosing offset) (read (offset + 1) (c :: cs))
  | c :: cs => push (.literal c) (read (offset + c.utf8Size) cs)
termination_by cs => cs.length

/-- The fault of the stray braces after `depth` open ones, in a pattern of `size` bytes. -/
def braceError? (size depth : Nat) : List Part → Option PatternError
  | [] => if depth = 0 then none else some ⟨.unbalancedBraces, size⟩
  | .strayOpening _ :: parts => braceError? size (depth + 1) parts
  | .strayClosing offset :: parts =>
    match depth with
    | 0 => some ⟨.unmatchedBrace, offset⟩
    | depth + 1 => braceError? size depth parts
  | _ :: parts => braceError? size depth parts

end Part

end Gherkin
