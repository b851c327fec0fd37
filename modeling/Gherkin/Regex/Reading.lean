import Gherkin.Regex

/-!
# Written regular expressions

A regular expression is built from its text.  Most characters stand for themselves; those that mean something
in an expression do so behind a backslash.
-/

namespace Gherkin

namespace Regex

def isOperator (c : Char) : Bool :=
  ['\\', '.', '+', '*', '?', '(', ')', '|', '[', ']', '{', '}', '^', '$'].contains c

/-- The characters that are written behind a backslash.  Some of them mean something within brackets only. -/
def isMeta (c : Char) : Bool := isOperator c || ['#', '&', '-', '~'].contains c

def escape (c : Char) : List Char := if isMeta c then ['\\', c] else [c]

inductive Repetition where
  | optional
  | many
  | several
deriving DecidableEq, Repr

inductive Symbol where
  | start
  | stop
  | opening
  | closing
  | chars (k : CharClass)
  | repeated (n : Repetition)
deriving DecidableEq, Repr

/-- The symbols of a text, unless it has one that is not known here. -/
def symbols? : List Char → Option (List Symbol)
  | [] => some []
  | '^' :: cs => (symbols? cs).map (.start :: ·)
  | '$' :: cs => (symbols? cs).map (.stop :: ·)
  | '(' :: cs => (symbols? cs).map (.opening :: ·)
  | ')' :: cs => (symbols? cs).map (.closing :: ·)
  | '?' :: cs => (symbols? cs).map (.repeated .optional :: ·)
  | '*' :: cs => (symbols? cs).map (.repeated .many :: ·)
  | '+' :: cs => (symbols? cs).map (.repeated .several :: ·)
  | '.' :: cs => (symbols? cs).map (.chars .inline :: ·)
  | '\\' :: 'd' :: cs => (symbols? cs).map (.chars .digit :: ·)
  | '\\' :: 'w' :: cs => (symbols? cs).map (.chars .word :: ·)
  | '\\' :: c :: cs => if isMeta c then (symbols? cs).map (.chars (.only c) :: ·) else none
  | '[' :: '^' :: c :: ']' :: cs =>
    if isMeta c then none else (symbols? cs).map (.chars (.except c) :: ·)
  | c :: cs => if isOperator c then none else (symbols? cs).map (.chars (.only c) :: ·)

def ofClass (k : CharClass) : Option Repetition → Regex
  | none => atom (.one k)
  | some .optional => atom (.optional k)
  | some .many => atom (.many k)
  | some .several => several k

/-- An expression as it is read from its end: a repetition whose class is still to come, and what is read of
the open groups, the innermost first. -/
structure Reading where
  repetition : Option Repetition := none
  inner : Regex := .empty
  outer : List Regex := []

/-- Reads the symbol before those that are read.  Only a class is repeated here. -/
def Reading.before? : Reading → Symbol → Option Reading
  | ⟨n, inner, outer⟩, .chars k => some ⟨none, .seq (ofClass k n) inner, outer⟩
  | ⟨none, inner, outer⟩, .repeated n => some ⟨some n, inner, outer⟩
  | ⟨none, inner, outer⟩, .start => some ⟨none, .seq (.atom .start) inner, outer⟩
  | ⟨none, inner, outer⟩, .stop => some ⟨none, .seq (.atom .stop) inner, outer⟩
  | ⟨none, inner, outer⟩, .closing => some ⟨none, .empty, inner :: outer⟩
  | ⟨none, inner, r :: outer⟩, .opening => some ⟨none, .seq (.group inner) r, outer⟩
  | _, _ => none

def reading? : List Symbol → Option Reading
  | [] => some {}
  | s :: ss => (reading? ss).bind (·.before? s)

def read? (text : String) : Option Regex :=
  match (symbols? text.toList).bind reading? with
  | some ⟨none, r, []⟩ => some r
  | _ => none

/-- The text `written` is read as what `before` puts in front of the expression behind it. -/
def Puts (written : List Char) (before : Regex → Regex) : Prop :=
  ∀ cs r outer, (symbols? cs).bind reading? = some ⟨none, r, outer⟩ →
    (symbols? (written ++ cs)).bind reading? = some ⟨none, before r, outer⟩

theorem symbols?_escape (c : Char) (cs : List Char) :
    symbols? (escape c ++ cs) = (symbols? cs).map (.chars (.only c) :: ·) := by
  unfold escape
  by_cases hmeta : isMeta c
  · rw [if_pos hmeta]
    have hmem := hmeta
    simp only [isMeta, isOperator, List.contains_eq_mem, List.mem_cons, List.not_mem_nil, or_false,
      Bool.or_eq_true, decide_eq_true_eq] at hmem
    -- Each of them is read back from behind its backslash; any other character is read as it is.
    rcases hmem with (rfl | rfl | rfl | rfl | rfl | rfl | rfl | rfl | rfl | rfl | rfl | rfl | rfl | rfl) |
      rfl | rfl | rfl | rfl <;> rfl
  · rw [if_neg hmeta, List.singleton_append]
    have hoperator : isOperator c = false := by
      simp only [isMeta, Bool.or_eq_true, not_or, Bool.not_eq_true] at hmeta
      exact hmeta.1
    rw [symbols?.eq_def]
    split <;> simp_all [isOperator]

theorem puts_nil : Puts [] id := fun _ _ _ h => h

theorem Puts.append {as bs : List Char} {f g : Regex → Regex} (ha : Puts as f) (hb : Puts bs g) :
    Puts (as ++ bs) (f ∘ g) := by
  intro cs r outer h
  rw [List.append_assoc]
  exact ha _ _ _ (hb cs r outer h)

/-- An escaped character stands for itself alone. -/
theorem puts_escape (c : Char) : Puts (escape c) (.seq (.atom (.one (.only c)))) := by
  intro cs r outer h
  obtain ⟨ss, hss, hr⟩ := Option.bind_eq_some_iff.1 h
  rw [symbols?_escape, hss]
  simp [reading?, hr, Reading.before?, ofClass]

end Regex

/-- What refuses to build a regular expression from its text, with the message: it may become too large. -/
abbrev Refusal := String → Option String

structure Matcher (text : String) where
  body : Regex
  reads : Regex.read? text = some body
deriving Repr

def Matcher.build (refusal? : Refusal) (text : String) (known : (Regex.read? text).isSome) :
    Except String (Matcher text) :=
  match refusal? text with
  | some message => .error message
  | none => .ok ⟨(Regex.read? text).get known, (Option.some_get known).symm⟩

theorem Matcher.build_of_refused {refusal? : Refusal} {text message : String}
    {known : (Regex.read? text).isSome} (h : refusal? text = some message) :
    Matcher.build refusal? text known = .error message := by
  unfold Matcher.build
  rw [h]

theorem Matcher.build_of_not_refused {refusal? : Refusal} {text : String}
    {known : (Regex.read? text).isSome} (h : refusal? text = none) :
    Matcher.build refusal? text known =
      .ok ⟨(Regex.read? text).get known, (Option.some_get known).symm⟩ := by
  unfold Matcher.build
  rw [h]

end Gherkin
