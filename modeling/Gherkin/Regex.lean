import Gherkin.Text.DecimalDigit
import Gherkin.Text.WordCharacter

/-!
# Regular expressions

The regular expressions that patterns are compiled to: anchors, groups and classes of characters, of which
a class may be repeated.  Repetitions are greedy.  A match starts as far left as it can, and of the ways to
match from there the first in the order in which they are tried is taken; its captures are the texts of the
groups, in the order in which the groups open.
-/

namespace Gherkin

inductive CharClass where
  | only (c : Char)
  | except (c : Char)
  | digit
  | word
  /-- Any character but a line feed. -/
  | inline
deriving DecidableEq, Repr

def CharClass.holds : CharClass → Char → Bool
  | only c, d => d = c
  | except c, d => d ≠ c
  | digit, d => Text.isDecimalDigit d
  | word, d => Text.isWordCharacter d
  | inline, d => d ≠ '\n'

namespace Regex

inductive Atom where
  | start
  | stop
  | one (k : CharClass)
  | optional (k : CharClass)
  | many (k : CharClass)
deriving DecidableEq, Repr

end Regex

inductive Regex where
  | empty
  | atom (a : Regex.Atom)
  | seq (r s : Regex)
  | group (r : Regex)
deriving DecidableEq, Repr

abbrev Captures := List (List Char)

namespace Regex

def several (k : CharClass) : Regex := seq (atom (.one k)) (atom (.many k))

/-! ## Meaning -/

/-- The ends of a list, the longest first. -/
def ends {α : Type} : List α → List (List α)
  | [] => [[]]
  | a :: as => (a :: as) :: ends as

/-- A way to match at the front of a text: its captures, and what it leaves. -/
structure Way where
  captures : Captures
  rest : List Char
deriving DecidableEq, Repr

def behindOne (k : CharClass) : List Char → List (List Char)
  | [] => []
  | c :: cs => if k.holds c then [cs] else []

/-- What the runs of a class at the front of a text leave, that of the longest run first. -/
def behindRun (k : CharClass) : List Char → List (List Char)
  | [] => [[]]
  | c :: cs => if k.holds c then behindRun k cs ++ [c :: cs] else [c :: cs]

/-- What an atom leaves of the end `cs` of a text of the given size, in the order in which its ways to match
are tried. -/
def Atom.behind (size : Nat) : Atom → List Char → List (List Char)
  | start, cs => if cs.length = size then [cs] else []
  | stop, cs => if cs.isEmpty then [cs] else []
  | one k, cs => behindOne k cs
  | optional k, cs => behindOne k cs ++ [cs]
  | many k, cs => behindRun k cs

/-- The ways to match at the front of the end `cs` of a text of the given size, in the order in which they
are tried. -/
def ways (size : Nat) : Regex → List Char → List Way
  | empty, cs => [⟨[], cs⟩]
  | atom a, cs => (a.behind size cs).map (⟨[], ·⟩)
  | seq r s, cs => (ways size r cs).flatMap fun w =>
      (ways size s w.rest).map fun v => ⟨w.captures ++ v.captures, v.rest⟩
  | group r, cs => (ways size r cs).map fun w =>
      ⟨cs.take (cs.length - w.rest.length) :: w.captures, w.rest⟩

def search (r : Regex) (text : List Char) : Option Captures :=
  (ends text).findSome? fun cs => ((r.ways text.length cs).head?).map Way.captures

/-! ## Matching

An expression is matched at all ends of a text at once, and from the last end on, so that no end is matched
twice.  A column has one entry for each end, the longest end first: what is found there, if anything. -/

section
variable {β γ : Type}

/-- The column of which each entry is made from the later column, at the end itself and at the next one, and
from its own next entry. -/
def column (last : Option β → Option γ) (entry : Char → Option β → Option β → Option γ → Option γ) :
    List Char → List (Option β) → List (Option γ)
  | c :: cs, x :: later =>
    let next := column last entry cs later
    entry c x later.head?.join next.head?.join :: next
  | _, later => [last later.head?.join]

def Atom.find : Atom → List Char → List (Option β) → List (Option β)
  | start, _, [] => []
  | start, _, x :: later => x :: later.map fun _ => none
  | stop, cs, later => column id (fun _ _ _ _ => none) cs later
  | one k, cs, later =>
    column (fun _ => none) (fun c _ next _ => if k.holds c then next else none) cs later
  | optional k, cs, later =>
    column id (fun c here next _ => (if k.holds c then next else none).or here) cs later
  | many k, cs, later =>
    column id (fun c here _ more => (if k.holds c then more else none).or here) cs later

def find : Regex → {β : Type} → List Char → List (Option β) → List (Option (Captures × β))
  | empty, _, _, later => later.map (·.map ([], ·))
  | atom a, _, cs, later => (a.find cs later).map (·.map ([], ·))
  | seq r s, _, cs, later => (find r cs (find s cs later)).map (·.map fun (captures, more, x) =>
      (captures ++ more, x))
  | group r, _, cs, later =>
    let left := List.zipWith (fun rest x => x.map (rest.length, ·)) (ends cs) later
    List.zipWith (fun cs x => x.map fun (captures, left, x) =>
      (cs.take (cs.length - left) :: captures, x)) (ends cs) (find r cs left)

end

def captures? (r : Regex) (text : List Char) : Option Captures :=
  ((r.find text ((ends text).map fun _ => some ())).findSome? id).map Prod.fst

/-! ### What is found -/

section
variable {α β γ : Type}

theorem ends_eq_cons (as : List α) : ∃ rest, ends as = as :: rest := by
  cases as <;> exact ⟨_, rfl⟩

theorem head?_map_ends (f : List α → Option β) (as : List α) : ((ends as).head?.map f).join = f as := by
  obtain ⟨rest, hrest⟩ := ends_eq_cons as
  rw [hrest]
  rfl

theorem length_le_of_mem_ends {as bs : List α} (h : bs ∈ ends as) : bs.length ≤ as.length := by
  induction as with
  | nil => simp_all [ends]
  | cons a as ih =>
    rcases List.mem_cons.1 h with rfl | h
    · exact Nat.le_refl _
    · exact Nat.le_succ_of_le (ih h)

theorem zipWith_map_ends {δ : Type} (f : List Char → β → δ) (g : List Char → β) (cs : List Char) :
    List.zipWith f (ends cs) ((ends cs).map g) = (ends cs).map fun rest => f rest (g rest) := by
  rw [List.zipWith_map_right, List.zipWith_self]

/-- A column is the column of a function that fulfils its equations. -/
theorem column_eq {last : Option β → Option γ} {entry : Char → Option β → Option β → Option γ → Option γ}
    {later : List Char → Option β} {found : List Char → Option γ} (hlast : found [] = last (later []))
    (hentry : ∀ c cs, found (c :: cs) = entry c (later (c :: cs)) (later cs) (found cs))
    (cs : List Char) : column last entry cs ((ends cs).map later) = (ends cs).map found := by
  induction cs with
  | nil => simp [column, ends, hlast]
  | cons c cs ih => simp [ends, column, ih, head?_map_ends, hentry]

theorem Atom.find_eq (a : Atom) (text : List Char) (later : List Char → Option β) :
    a.find text ((ends text).map later) =
      (ends text).map fun cs => (a.behind text.length cs).findSome? later := by
  cases a with
  | start =>
    cases text with
    | nil => simp [ends, find, behind]
    | cons c cs =>
      simp only [ends, List.map_cons, find, behind, List.map_map]
      -- Every other end is shorter than the text.
      have hshort : ∀ rest ∈ ends cs, rest.length ≠ (c :: cs).length := fun rest hrest =>
        Nat.ne_of_lt (Nat.lt_succ_of_le (length_le_of_mem_ends hrest))
      refine congr (by simp) (List.map_congr_left fun rest hrest => ?_)
      rw [if_neg (hshort rest hrest)]
      rfl
  | stop =>
    refine column_eq ?_ (fun c cs => ?_) text
    · simp [behind]
    · simp [behind]
  | one k =>
    refine column_eq ?_ (fun c cs => ?_) text
    · simp [behind, behindOne]
    · by_cases hc : k.holds c <;> simp [behind, behindOne, hc]
  | optional k =>
    refine column_eq ?_ (fun c cs => ?_) text
    · simp [behind, behindOne]
    · rw [behind, List.findSome?_append]
      by_cases hc : k.holds c <;> simp [behindOne, hc]
  | many k =>
    refine column_eq ?_ (fun c cs => ?_) text
    · simp [behind, behindRun]
    · by_cases hc : k.holds c <;> simp [behind, behindRun, hc, List.findSome?_append]

def first (size : Nat) (r : Regex) (later : List Char → Option β) (cs : List Char) :
    Option (Captures × β) :=
  (r.ways size cs).findSome? fun w => (later w.rest).map (w.captures, ·)

variable (size : Nat) (later : List Char → Option β)

theorem first_atom (a : Atom) (cs : List Char) :
    first size (atom a) later cs = ((a.behind size cs).findSome? later).map ([], ·) := by
  unfold first
  rw [ways]
  induction a.behind size cs with
  | nil => rfl
  | cons rest left ih =>
    rw [List.map_cons, List.findSome?_cons, List.findSome?_cons, ih]
    cases later rest <;> rfl

theorem findSome?_map_append (captures : Captures) (ws : List Way) :
    (ws.map fun w => Way.mk (captures ++ w.captures) w.rest).findSome?
        (fun w => (later w.rest).map (w.captures, ·)) =
      (ws.findSome? fun w => (later w.rest).map (w.captures, ·)).map fun (more, x) =>
        (captures ++ more, x) := by
  induction ws with
  | nil => rfl
  | cons w ws ih =>
    rw [List.map_cons, List.findSome?_cons, List.findSome?_cons, ih]
    cases later w.rest <;> rfl

theorem first_seq (r s : Regex) (cs : List Char) : first size (seq r s) later cs =
    (first size r (first size s later) cs).map fun (captures, more, x) => (captures ++ more, x) := by
  unfold first
  rw [ways]
  induction ways size r cs with
  | nil => rfl
  | cons w ws ih =>
    rw [List.flatMap_cons, List.findSome?_append, ih, List.findSome?_cons, findSome?_map_append]
    cases (ways size s w.rest).findSome? fun v => (later v.rest).map (v.captures, ·) <;> rfl

theorem first_group (r : Regex) (cs : List Char) : first size (group r) later cs =
    (first size r (fun rest => (later rest).map (rest.length, ·)) cs).map fun (captures, left, x) =>
      (cs.take (cs.length - left) :: captures, x) := by
  unfold first
  rw [ways]
  induction ways size r cs with
  | nil => rfl
  | cons w ws ih =>
    rw [List.map_cons, List.findSome?_cons, ih, List.findSome?_cons]
    cases hlater : later w.rest with
    | none => simp [hlater]
    | some x => simp [hlater]

theorem find_eq (r : Regex) (text : List Char) (later : List Char → Option β) :
    r.find text ((ends text).map later) = (ends text).map (first text.length r later) := by
  induction r generalizing β with
  | empty =>
    rw [find, List.map_map]
    refine List.map_congr_left fun cs _ => ?_
    simp only [Function.comp_apply, first, ways, List.findSome?_cons, List.findSome?_nil]
    cases later cs <;> rfl
  | atom a =>
    rw [find, a.find_eq, List.map_map]
    exact List.map_congr_left fun cs _ => (first_atom _ later a cs).symm
  | seq r s ihr ihs =>
    rw [find, ihs, ihr, List.map_map]
    exact List.map_congr_left fun cs _ => (first_seq _ later r s cs).symm
  | group r ih =>
    rw [find]
    dsimp only
    rw [zipWith_map_ends, ih, zipWith_map_ends]
    exact List.map_congr_left fun cs _ => (first_group _ later r cs).symm

/-- The captures by columns are those of the match. -/
theorem captures?_eq_search (r : Regex) (text : List Char) : r.captures? text = r.search text := by
  unfold captures? search
  rw [find_eq, List.findSome?_map, List.map_findSome?]
  congr 1
  funext cs
  simp only [Function.comp_apply, id_eq, first]
  cases r.ways text.length cs <;> simp

end

end Regex

end Gherkin
