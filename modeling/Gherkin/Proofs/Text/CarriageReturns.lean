import Gherkin.Text.Bytes
import Gherkin.Text.Replacement
import Gherkin.Proofs.Text.LineEnds

/-!
# Line feeds behind carriage returns

A text is written with `CR LF` line ends by putting a carriage return before every line feed.  Its lines
keep their bodies, each line end is one byte longer, and from any place to the end of its line the
trimmed text stays what it is.
-/

namespace Gherkin.Text

def withCrlf (cs : List Char) : List Char :=
  cs.flatMap fun c => if c = '\n' then ['\r', '\n'] else [c]

@[simp] theorem withCrlf_nil : withCrlf [] = [] := rfl

theorem withCrlf_cons_lf (cs : List Char) : withCrlf ('\n' :: cs) = '\r' :: '\n' :: withCrlf cs := rfl

theorem withCrlf_cons_of_ne {c : Char} (h : c ≠ '\n') (cs : List Char) :
    withCrlf (c :: cs) = c :: withCrlf cs := by
  unfold withCrlf
  rw [List.flatMap_cons, if_neg h, List.singleton_append]

@[simp] theorem withCrlf_append (as bs : List Char) :
    withCrlf (as ++ bs) = withCrlf as ++ withCrlf bs := List.flatMap_append

theorem withCrlf_eq_self {cs : List Char} (h : '\n' ∉ cs) : withCrlf cs = cs := by
  induction cs with
  | nil => rfl
  | cons c cs ih =>
    have hc : c ≠ '\n' := fun heq => h (heq ▸ List.mem_cons_self)
    rw [withCrlf_cons_of_ne hc, ih fun hmem => h (List.mem_cons_of_mem c hmem)]

theorem byteLength_withCrlf (cs : List Char) :
    byteLength (withCrlf cs) = byteLength cs + cs.count '\n' := by
  induction cs with
  | nil => rfl
  | cons c cs ih =>
    by_cases hc : c = '\n'
    · have hreturn : '\r'.utf8Size = 1 := rfl
      rw [hc, withCrlf_cons_lf, byteLength_cons, byteLength_cons, byteLength_cons, ih, hreturn,
        List.count_cons_self]
      omega
    · rw [withCrlf_cons_of_ne hc, byteLength_cons, byteLength_cons, ih, List.count_cons_of_ne hc]
      omega

/-- The offset in `withCrlf cs` of what stands at byte offset `n` of `cs`. -/
def crlfOffset (cs : List Char) (n : Nat) : Nat :=
  n + (cs.count '\n' - ((dropBytes? n cs).getD []).count '\n')

theorem crlfOffset_byteLength (as bs : List Char) :
    crlfOffset (as ++ bs) (byteLength as) = byteLength (withCrlf as) := by
  unfold crlfOffset
  rw [dropBytes?_byteLength_append, Option.getD_some, List.count_append, byteLength_withCrlf]
  omega

/-! ## Text to the end of a line -/

/-- A carriage return before the end of a line is trimmed. -/
theorem trim_takeWhile_withCrlf (cs : List Char) :
    trim ((withCrlf cs).takeWhile (· ≠ '\n')) = trim (cs.takeWhile (· ≠ '\n')) := by
  have hbody : '\n' ∉ cs.takeWhile (· ≠ '\n') := by
    intro hmem
    have hne := List.mem_takeWhile_imp hmem
    simp at hne
  have hbefore : withCrlf cs =
      cs.takeWhile (· ≠ '\n') ++ withCrlf (cs.dropWhile (· ≠ '\n')) := by
    conv_lhs => rw [← List.takeWhile_append_dropWhile (p := (· ≠ '\n')) (l := cs)]
    rw [withCrlf_append, withCrlf_eq_self hbody]
  -- What is new before the line feed is one carriage return, and that is blank.
  rw [hbefore]
  apply trim_takeWhile_append hbody
  cases hrest : cs.dropWhile (· ≠ '\n') with
  | nil => exact Or.inl rfl
  | cons c rest =>
    have hhead := List.head?_dropWhile_not (· ≠ '\n') cs
    rw [hrest] at hhead
    have hc : c = '\n' := by simpa using hhead
    rw [hc, withCrlf_cons_lf]
    exact Or.inr ⟨withCrlf rest, Or.inr rfl⟩

/-- A word without a line end is at the front of a text however the text ends its lines. -/
theorem isSome_dropWord?_withCrlf {word : List Char} (hlf : '\n' ∉ word) (hcr : '\r' ∉ word)
    (cs : List Char) : (dropWord? word (withCrlf cs)).isSome = (dropWord? word cs).isSome := by
  induction word generalizing cs with
  | nil =>
    rw [dropWord?, dropWord?]
    rfl
  | cons w word ih =>
    cases cs with
    | nil => rfl
    | cons c cs =>
      by_cases hc : c = '\n'
      · have hw : w ≠ '\r' := fun heq => hcr (heq ▸ List.mem_cons_self)
        have hw' : w ≠ '\n' := fun heq => hlf (heq ▸ List.mem_cons_self)
        rw [hc, withCrlf_cons_lf, dropWord?, dropWord?, if_neg hw, if_neg hw']
      · rw [withCrlf_cons_of_ne hc, dropWord?, dropWord?]
        by_cases hw : w = c
        · rw [if_pos hw, if_pos hw]
          exact ih (fun hmem => hlf (List.mem_cons_of_mem w hmem))
            (fun hmem => hcr (List.mem_cons_of_mem w hmem)) cs
        · rw [if_neg hw, if_neg hw]

/-! ## Lines -/

def LineEnd.withCrlf : LineEnd → LineEnd
  | .lf => .crlf
  | ending => ending

def Line.withCrlf (l : Line) : Line := { l with ending := l.ending.withCrlf }

/-- A line without a line feed in its body and without a carriage return in its end. -/
def Line.IsPlain (l : Line) : Prop := '\n' ∉ l.body ∧ l.ending ≠ .crlf

theorem LineEnd.chars_withCrlf {ending : LineEnd} (h : ending ≠ .crlf) :
    ending.withCrlf.chars = Text.withCrlf ending.chars := by
  cases ending with
  | lf => rfl
  | crlf => exact absurd rfl h
  | missing => rfl

theorem Line.IsPlain.chars_withCrlf {l : Line} (h : l.IsPlain) :
    l.withCrlf.chars = Text.withCrlf l.chars := by
  show l.body ++ l.ending.withCrlf.chars = _
  rw [LineEnd.chars_withCrlf h.2, Line.chars, withCrlf_append, withCrlf_eq_self h.1]

theorem flatMap_chars_withCrlf {ls : List Line} (h : ∀ l ∈ ls, l.IsPlain) :
    (ls.map Line.withCrlf).flatMap Line.chars = withCrlf (ls.flatMap Line.chars) := by
  induction ls with
  | nil => rfl
  | cons l ls ih =>
    rw [List.map_cons, List.flatMap_cons, List.flatMap_cons, withCrlf_append,
      (h l List.mem_cons_self).chars_withCrlf, ih fun l' hl' => h l' (List.mem_cons_of_mem l hl')]

theorem isPlain_of_mem_lines {cs : List Char} (h : '\r' ∉ cs) : ∀ l ∈ lines cs, l.IsPlain := by
  intro l hl
  refine ⟨not_mem_body_of_wellCut (wellCut_lines cs) l hl, fun hending => h ?_⟩
  rw [← flatMap_chars_lines cs]
  apply List.mem_flatMap.2
  exact ⟨l, hl, by simp [Line.chars, LineEnd.chars, hending]⟩

/-- Only the line ends differ. -/
theorem lines_withCrlf {cs : List Char} (h : '\r' ∉ cs) :
    lines (withCrlf cs) = (lines cs).map Line.withCrlf := by
  fun_induction lines cs with
  | case1 => rfl
  | case2 cs ih =>
    have hcs : '\r' ∉ cs := fun hmem => h (List.mem_cons_of_mem _ hmem)
    rw [withCrlf_cons_lf, lines, ih hcs]
    rfl
  | case3 cs ih => exact absurd List.mem_cons_self h
  | case4 c cs hlf _ hnil ih =>
    have hcs : cs = [] := lines_eq_nil_iff.1 hnil
    rw [hcs, withCrlf_cons_of_ne hlf, withCrlf_nil, lines_eq_singleton (by simp) (by simpa using Ne.symm hlf)]
    rfl
  | case5 c cs hlf _ l ls hcons ih =>
    -- The character starts no line end, as it is no carriage return.
    have hc : c ≠ '\r' := fun heq => h (heq ▸ List.mem_cons_self)
    have hcs : '\r' ∉ cs := fun hmem => h (List.mem_cons_of_mem c hmem)
    rw [withCrlf_cons_of_ne hlf, lines.eq_4 c (withCrlf cs) hlf fun _ heq => absurd heq hc, ih hcs, hcons]
    rfl

end Gherkin.Text
