import Gherkin.Document.Printer
import Gherkin.Proofs.Text.LineEnds
import Gherkin.Proofs.Text.Trimming

/-!
# Printed lines

A printed text is cut into the lines that it was put together from, as long as none of them holds a line feed
or ends with a carriage return.
-/

namespace Gherkin

namespace Printed

def line (l : Nat × List Char) : Text.Line where
  body := if l.2.isEmpty then [] else List.replicate (2 * l.1) ' ' ++ l.2
  ending := .lf

theorem chars_line (l : Nat × List Char) : (line l).chars = lineChars l.1 l.2 := by
  unfold line lineChars Text.Line.chars
  cases l.2.isEmpty <;> rfl

theorem body_line {n : Nat} {cs : List Char} (h : cs ≠ []) :
    (line (n, cs)).body = List.replicate (2 * n) ' ' ++ cs := by
  have hempty : cs.isEmpty = false := by simpa using h
  unfold line
  rw [hempty]
  rfl

theorem body_line_nil (n : Nat) : (line (n, [])).body = [] := rfl

theorem isBlank_of_mem_replicate {n : Nat} : ∀ c ∈ List.replicate n ' ', Text.isBlank c := by
  intro c hc
  rw [List.eq_of_mem_replicate hc]
  rfl

def OnOneLine (cs : List Char) : Prop := '\n' ∉ cs ∧ cs.getLast? ≠ some '\r'

theorem onOneLine_of_not_mem {cs : List Char} (hlf : '\n' ∉ cs) (hcr : '\r' ∉ cs) : OnOneLine cs :=
  ⟨hlf, fun h => hcr (List.mem_of_getLast? h)⟩

theorem onOneLine_nil : OnOneLine [] := onOneLine_of_not_mem (by simp) (by simp)

-- A carriage return is blank, so a trimmed text does not end with one.
theorem onOneLine_of_trim_eq {cs : List Char} (htrim : Text.trim cs = cs) (hlf : '\n' ∉ cs) :
    OnOneLine cs := by
  refine ⟨hlf, fun h => ?_⟩
  rcases List.getLast?_eq_some_iff.1 h with ⟨bs, hbs⟩
  rw [hbs] at htrim
  exact Text.not_isBlank_of_trim_eq_concat htrim (by decide)

theorem OnOneLine.append {as bs : List Char} (has : '\n' ∉ as) (hne : bs ≠ []) (hbs : OnOneLine bs) :
    OnOneLine (as ++ bs) := by
  refine ⟨fun h => ?_, ?_⟩
  · rcases List.mem_append.1 h with h | h
    · exact has h
    · exact hbs.1 h
  · rw [List.getLast?_append_of_ne_nil _ hne]
    exact hbs.2

theorem onOneLine_line {l : Nat × List Char} (h : OnOneLine l.2) : OnOneLine (line l).body := by
  unfold line
  by_cases hempty : l.2.isEmpty
  · simp [hempty, OnOneLine]
  · have hne : l.2 ≠ [] := by simpa using hempty
    simp only [hempty, Bool.false_eq_true, if_false]
    refine ⟨by simpa using h.1, ?_⟩
    rw [List.getLast?_append_of_ne_nil _ hne]
    exact h.2

theorem toList_text (ls : Printed) : ls.text.toList = (ls.map line).flatMap Text.Line.chars := by
  unfold text
  rw [String.toList_ofList, List.flatMap_map]
  congr 1
  ext l : 1
  rw [chars_line]

theorem toList_text_append (as bs : Printed) :
    (text (as ++ bs)).toList = (text as).toList ++ (text bs).toList := by
  rw [toList_text, toList_text, toList_text, List.map_append, List.flatMap_append]

theorem toList_text_cons (l : Nat × List Char) (ls : Printed) :
    (text (l :: ls)).toList = (line l).body ++ '\n' :: (text ls).toList := by
  rw [toList_text, toList_text, List.map_cons, List.flatMap_cons, Text.Line.chars, List.append_assoc]
  rfl

theorem lines_text {ls : Printed} (h : ∀ l ∈ ls, OnOneLine l.2) :
    Text.lines ls.text.toList = ls.map line := by
  rw [toList_text]
  induction ls with
  | nil => rfl
  | cons l ls ih =>
    have hbody := onOneLine_line (h l List.mem_cons_self)
    have hchars : (line l).chars = (line l).body ++ ['\n'] := rfl
    rw [List.map_cons, List.flatMap_cons, hchars, List.append_assoc, List.singleton_append,
      Text.lines_append_lf hbody.1 hbody.2, ih fun m hm => h m (List.mem_cons_of_mem l hm)]
    rfl

/-! ## Levels -/

def shift (n : Nat) (ls : Printed) : Printed := ls.map fun (level, cs) => (level + n, cs)

theorem shift_zero (ls : Printed) : shift 0 ls = ls := by
  unfold shift
  exact List.map_id ls

theorem shift_append (n : Nat) (as bs : Printed) : shift n (as ++ bs) = shift n as ++ shift n bs :=
  List.map_append

theorem shift_indent (n : Nat) (ls : Printed) : shift n (indent ls) = shift (n + 1) ls := by
  unfold shift indent
  rw [List.map_map]
  congr 1
  ext l : 1
  exact Prod.ext (Nat.add_right_comm l.1 1 n) rfl

theorem shift_singleton (n : Nat) (cs : List Char) : shift n [(0, cs)] = [(n, cs)] := by
  show [(0 + n, cs)] = _
  rw [Nat.zero_add]

theorem shift_flatMap {α : Type} (n : Nat) (xs : List α) (print : α → Printed) :
    shift n (xs.flatMap print) = xs.flatMap fun x => shift n (print x) :=
  List.map_flatMap

def atLevel (n : Nat) (ls : List (List Char)) : Printed := ls.map fun l => (n, l)

theorem atLevel_cons (n : Nat) (l : List Char) (ls : List (List Char)) :
    atLevel n (l :: ls) = (n, l) :: atLevel n ls := rfl

theorem atLevel_append (n : Nat) (ks ls : List (List Char)) :
    atLevel n (ks ++ ls) = atLevel n ks ++ atLevel n ls :=
  List.map_append

theorem shift_atLevel (n k : Nat) (ls : List (List Char)) :
    shift n (atLevel k ls) = atLevel (k + n) ls := by
  unfold shift atLevel
  rw [List.map_map]
  rfl

end Printed

end Gherkin
