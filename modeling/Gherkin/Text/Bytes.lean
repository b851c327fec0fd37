/-!
# Byte offsets into a text

Offsets count the bytes of the UTF-8 form of a text, while the text itself is a list of characters.
An offset names a place only where a character starts or the text ends.
-/

namespace Gherkin.Text

def byteLength : List Char → Nat
  | [] => 0
  | c :: cs => c.utf8Size + byteLength cs

@[simp] theorem byteLength_nil : byteLength [] = 0 := rfl

@[simp] theorem byteLength_cons (c : Char) (cs : List Char) :
    byteLength (c :: cs) = c.utf8Size + byteLength cs := rfl

@[simp] theorem byteLength_append (as bs : List Char) :
    byteLength (as ++ bs) = byteLength as + byteLength bs := by
  induction as with
  | nil => simp
  | cons a as ih => simp [ih, Nat.add_assoc]

/-- What follows byte offset `n`, or nothing where `n` is past the end or inside a character. -/
def dropBytes? : Nat → List Char → Option (List Char)
  | 0, cs => some cs
  | _ + 1, [] => none
  | n + 1, c :: cs => if c.utf8Size ≤ n + 1 then dropBytes? (n + 1 - c.utf8Size) cs else none
termination_by structural _ cs => cs

/-- The place where a prefix ends is a place, and the rest follows it. -/
theorem dropBytes?_byteLength_append (as bs : List Char) :
    dropBytes? (byteLength as) (as ++ bs) = some bs := by
  induction as with
  | nil => cases bs <;> simp [dropBytes?]
  | cons a as ih =>
    obtain ⟨n, hn⟩ : ∃ n, byteLength (a :: as) = n + 1 :=
      ⟨_, (Nat.succ_pred_eq_of_pos (by have := a.utf8Size_pos; simp; omega)).symm⟩
    have rest : n + 1 - a.utf8Size = byteLength as := by simp at hn; omega
    have fits : a.utf8Size ≤ n + 1 := by simp at hn; omega
    rw [hn, List.cons_append, dropBytes?, if_pos fits, rest, ih]

/-- The characters up to byte offset `n`, one that it cuts through among them. -/
def takeBytes : Nat → List Char → List Char
  | 0, _ => []
  | _ + 1, [] => []
  | n + 1, c :: cs => c :: takeBytes (n + 1 - c.utf8Size) cs
termination_by structural _ cs => cs

theorem takeBytes_byteLength_append (as bs : List Char) : takeBytes (byteLength as) (as ++ bs) = as := by
  induction as with
  | nil => cases bs <;> simp [takeBytes]
  | cons a as ih =>
    obtain ⟨n, hn⟩ : ∃ n, byteLength (a :: as) = n + 1 :=
      ⟨_, (Nat.succ_pred_eq_of_pos (by have := a.utf8Size_pos; simp; omega)).symm⟩
    have rest : n + 1 - a.utf8Size = byteLength as := by simp at hn; omega
    rw [hn, List.cons_append, takeBytes, rest, ih]

end Gherkin.Text
