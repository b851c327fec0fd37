/-!
# Lines

A text is a sequence of lines, each a body and the line end that closes it.  A line feed ends a line,
alone or after one carriage return; any other carriage return belongs to the body.  Only the last
line may lack an end, and then its body is not empty.
-/

namespace Gherkin.Text

inductive LineEnd where
  | lf
  | crlf
  | missing
deriving DecidableEq, Repr

def LineEnd.chars : LineEnd → List Char
  | .lf => ['\n']
  | .crlf => ['\r', '\n']
  | .missing => []

structure Line where
  body : List Char
  ending : LineEnd
deriving DecidableEq, Repr

def Line.chars (l : Line) : List Char := l.body ++ l.ending.chars

def lines : List Char → List Line
  | [] => []
  | '\n' :: cs => ⟨[], .lf⟩ :: lines cs
  | '\r' :: '\n' :: cs => ⟨[], .crlf⟩ :: lines cs
  | c :: cs =>
    match lines cs with
    | [] => [⟨[c], .missing⟩]
    | l :: ls => ⟨c :: l.body, l.ending⟩ :: ls

/-- Splitting into lines loses nothing. -/
theorem flatMap_chars_lines (cs : List Char) : (lines cs).flatMap Line.chars = cs := by
  fun_induction lines cs with
  | case1 => rfl
  | case2 cs ih => simp [Line.chars, LineEnd.chars, ih]
  | case3 cs ih => simp [Line.chars, LineEnd.chars, ih]
  | case4 c cs _ _ h ih => rw [h] at ih; simp_all [Line.chars, LineEnd.chars]
  | case5 c cs _ _ l ls h ih => rw [h] at ih; simp_all [Line.chars]

end Gherkin.Text
