import Gherkin.Text.Blank
import Gherkin.Text.Lines
import Gherkin.Text.Replacement

/-!
# Doc strings

A doc string is a block of lines between two delimiters.  Its lines lose the indentation of the
opening delimiter, and a delimiter inside the content is written with a backslash before each of its
characters.
-/

namespace Gherkin

inductive Delimiter where
  | doubleQuotes
  | backticks
deriving DecidableEq, Repr

namespace Delimiter

def mark : Delimiter → Char
  | .doubleQuotes => '"'
  | .backticks => '`'

def chars (d : Delimiter) : List Char := [d.mark, d.mark, d.mark]

def escaped (d : Delimiter) : List Char := ['\\', d.mark, '\\', d.mark, '\\', d.mark]

def text (d : Delimiter) : String := String.ofList d.chars

def opening? (cs : List Char) : Option (Delimiter × List Char) :=
  match Text.dropWord? backticks.chars cs with
  | some rest => some (.backticks, rest)
  | none => (Text.dropWord? doubleQuotes.chars cs).map (.doubleQuotes, ·)

theorem eq_append_of_opening? {cs rest : List Char} {d : Delimiter}
    (h : opening? cs = some (d, rest)) : cs = d.chars ++ rest := by
  unfold opening? at h
  split at h
  · rename_i hdrop
    obtain ⟨rfl, rfl⟩ := Prod.mk.inj (Option.some.inj h)
    exact Text.dropWord?_eq_some_iff.1 hdrop
  · obtain ⟨_, hdrop, hpair⟩ := Option.map_eq_some_iff.1 h
    obtain ⟨rfl, rfl⟩ := Prod.mk.inj hpair
    exact Text.dropWord?_eq_some_iff.1 hdrop

def closes (d : Delimiter) (body : List Char) : Bool :=
  (Text.dropWord? d.chars (Text.trimStart body)).isSome

def escape (d : Delimiter) (cs : List Char) : List Char :=
  Text.replaceAll d.mark [d.mark, d.mark] d.escaped cs

def unescape (d : Delimiter) (cs : List Char) : List Char :=
  Text.replaceAll '\\' [d.mark, '\\', d.mark, '\\', d.mark] d.chars cs

/-- A line less at most `n` leading spaces and tabs. -/
def stripIndent : Nat → List Char → List Char
  | n + 1, c :: cs => if c = ' ' || c = '\t' then stripIndent n cs else c :: cs
  | _, cs => cs

/-- The content of a block whose opening delimiter stands `indent` characters into its line. -/
def content (d : Delimiter) (indent : Nat) (ls : List Text.Line) : List Char :=
  let written := ls.map fun l => stripIndent indent (Text.dropEndWhile (· = '\r') l.body)
  d.unescape (List.intercalate ['\n'] written)

end Delimiter

structure DocString where
  content : String
  contentType : Option String
  delimiter : Delimiter
deriving DecidableEq, Repr

end Gherkin
