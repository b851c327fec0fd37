import Mathlib
import Gherkin.Pattern

/-!
# What a pattern matches

A cut of a text under a pattern gives one text to every slot: put back between the literal characters,
they are the whole text.  The ways in which the regular expression of a pattern matches a text are the cuts
of the text, and those whose earlier slots take more are tried before the others.
-/

namespace Gherkin

/-! ## Members of slots -/

def IsRun (p : Char → Bool) (cs : List Char) : Prop := cs ≠ [] ∧ ∀ c ∈ cs, p c

def IsSigned (P : List Char → Prop) (cs : List Char) : Prop := P cs ∨ ∃ ds, cs = '-' :: ds ∧ P ds

def IsDecimal (cs : List Char) : Prop :=
  ∃ whole fraction, cs = whole ++ '.' :: fraction ∧
    IsRun Text.isDecimalDigit whole ∧ IsRun Text.isDecimalDigit fraction

/-- The texts that a slot may capture. -/
def Slot.Holds : Slot → List Char → Prop
  | .int => IsSigned (IsRun Text.isDecimalDigit)
  | .float => IsSigned IsDecimal
  | .string => fun cs => '"' ∉ cs
  | .word => IsRun Text.isWordCharacter
  | .any | .custom _ => IsRun (· ≠ '\n')

def Slot.written : Slot → List Char → List Char
  | .string, cs => '"' :: cs ++ ['"']
  | _, cs => cs

inductive Piece where
  | char (c : Char)
  | slot (s : Slot)
deriving DecidableEq, Repr

def Piece.slot? : Piece → Option Slot
  | .char _ => none
  | .slot s => some s

def Piece.regex : Piece → List Char
  | .char c => Regex.escape c
  | .slot s => s.regex.toList

/-- A stray brace is a character like any other. -/
def Part.piece : Part → Piece
  | .literal c => .char c
  | .slot s => .slot s
  | .strayOpening _ => .char '{'
  | .strayClosing _ => .char '}'

theorem Part.slot?_piece (part : Part) : part.piece.slot? = part.toSlot? := by
  cases part <;> rfl

theorem Part.regex_piece (part : Part) : part.piece.regex = part.regex := by
  cases part <;> rfl

def Piece.assemble : List Piece → List (List Char) → List Char
  | .char c :: ps, captures => c :: assemble ps captures
  | .slot s :: ps, capture :: captures => s.written capture ++ assemble ps captures
  | _, _ => []

/-- The captures are members of the slots, one each, and make up the text. -/
def Piece.Cuts (ps : List Piece) (captures : List (List Char)) (cs : List Char) : Prop :=
  List.Forall₂ Slot.Holds (ps.filterMap Piece.slot?) captures ∧ Piece.assemble ps captures = cs

namespace Piece

/-! ## Cuts by their first piece -/

theorem cuts_nil_iff {captures : List (List Char)} {cs : List Char} :
    Cuts [] captures cs ↔ captures = [] ∧ cs = [] := by
  constructor
  · rintro ⟨hslots, rfl⟩
    cases hslots
    exact ⟨rfl, rfl⟩
  · rintro ⟨rfl, rfl⟩
    exact ⟨.nil, rfl⟩

theorem cuts_char_iff {c : Char} {ps : List Piece} {captures : List (List Char)} {cs : List Char} :
    Cuts (.char c :: ps) captures cs ↔ ∃ rest, cs = c :: rest ∧ Cuts ps captures rest := by
  constructor
  · rintro ⟨hslots, rfl⟩
    exact ⟨_, rfl, hslots, rfl⟩
  · rintro ⟨_, rfl, hslots, rfl⟩
    exact ⟨hslots, rfl⟩

theorem cuts_slot_iff {s : Slot} {ps : List Piece} {captures : List (List Char)} {cs : List Char} :
    Cuts (.slot s :: ps) captures cs ↔ ∃ capture more rest, captures = capture :: more ∧
      s.Holds capture ∧ cs = s.written capture ++ rest ∧ Cuts ps more rest := by
  constructor
  · rintro ⟨hslots, rfl⟩
    cases hslots with
    | cons hcapture hmore => exact ⟨_, _, _, rfl, hcapture, rfl, hmore, rfl⟩
  · rintro ⟨_, _, _, rfl, hcapture, rfl, hmore, rfl⟩
    exact ⟨.cons hcapture hmore, rfl⟩

theorem written_inj_of_length {s : Slot} {w w' rest rest' : List Char}
    (hlength : w'.length = w.length) (h : s.written w' ++ rest' = s.written w ++ rest) :
    w' = w ∧ rest' = rest := by
  cases s with
  | string =>
    simp only [Slot.written, List.cons_append, List.append_assoc, List.cons.injEq, true_and] at h
    obtain ⟨rfl, htail⟩ := List.append_inj h hlength
    exact ⟨rfl, by simpa using htail⟩
  | int => exact List.append_inj h hlength
  | float => exact List.append_inj h hlength
  | word => exact List.append_inj h hlength
  | any => exact List.append_inj h hlength
  | custom name => exact List.append_inj h hlength

end Piece

namespace Regex

/-! ## Expressions without groups

Such an expression takes the members of a set, and a longer one is tried before a shorter one. -/

/-- The expression takes the members of `P` at the front of any text, the longest first. -/
def Takes (r : Regex) (P : List Char → Prop) : Prop := ∀ size cs, ∃ left : List (List Char),
  r.ways size cs = left.map (Way.mk []) ∧ (∀ rest, rest ∈ left ↔ ∃ w, P w ∧ cs = w ++ rest) ∧
    left.Pairwise fun a b => a.length < b.length

theorem ways_seq_atom (size : Nat) (a : Atom) (r : Regex) (cs : List Char) :
    (seq (atom a) r).ways size cs = (a.behind size cs).flatMap (r.ways size) := by
  rw [ways, ways, List.flatMap_map]
  simp

theorem takes_empty : Takes .empty (· = []) := by
  intro size cs
  exact ⟨[cs], rfl, fun rest => by simp [eq_comm], List.pairwise_singleton _ _⟩

theorem mem_behindOne {k : CharClass} {cs rest : List Char} :
    rest ∈ behindOne k cs ↔ ∃ c, k.holds c ∧ cs = c :: rest := by
  cases cs with
  | nil => simp [behindOne]
  | cons d ds =>
    rw [behindOne]
    by_cases hd : k.holds d
    · rw [if_pos hd, List.mem_singleton]
      constructor
      · rintro rfl
        exact ⟨d, hd, rfl⟩
      · rintro ⟨c, -, h⟩
        exact (List.cons.inj h).2.symm
    · rw [if_neg hd]
      refine ⟨fun h => absurd h List.not_mem_nil, ?_⟩
      rintro ⟨c, hc, h⟩
      exact absurd ((List.cons.inj h).1 ▸ hc) hd

theorem pairwise_behindOne (k : CharClass) (cs : List Char) :
    (behindOne k cs).Pairwise fun a b => a.length < b.length := by
  cases cs with
  | nil => exact .nil
  | cons c cs => by_cases hc : k.holds c <;> simp [behindOne, hc]

theorem mem_behindRun {k : CharClass} {cs rest : List Char} :
    rest ∈ behindRun k cs ↔ ∃ w, (∀ c ∈ w, k.holds c) ∧ cs = w ++ rest := by
  induction cs with
  | nil =>
    rw [behindRun, List.mem_singleton]
    constructor
    · rintro rfl
      exact ⟨[], by simp, rfl⟩
    · rintro ⟨w, -, h⟩
      exact (List.append_eq_nil_iff.1 h.symm).2
  | cons c cs ih =>
    -- A run starts with `c` or is empty.
    have hruns : (∃ w, (∀ d ∈ w, k.holds d) ∧ c :: cs = w ++ rest) ↔
        (k.holds c ∧ ∃ w, (∀ d ∈ w, k.holds d) ∧ cs = w ++ rest) ∨ rest = c :: cs := by
      constructor
      · rintro ⟨w, hw, h⟩
        cases w with
        | nil => exact .inr h.symm
        | cons d v =>
          obtain ⟨rfl, hcs⟩ := List.cons.inj h
          exact .inl ⟨hw c (by simp), v, fun d hd => hw d (by simp [hd]), hcs⟩
      · rintro (⟨hc, w, hw, rfl⟩ | rfl)
        · exact ⟨c :: w, by simpa [hc] using hw, rfl⟩
        · exact ⟨[], by simp, rfl⟩
    rw [hruns, ← ih, behindRun]
    by_cases hc : k.holds c <;> simp [hc]

theorem pairwise_behindRun (k : CharClass) (cs : List Char) :
    (behindRun k cs).Pairwise fun a b => a.length < b.length := by
  induction cs with
  | nil => exact List.pairwise_singleton _ _
  | cons c cs ih =>
    unfold behindRun
    by_cases hc : k.holds c
    · rw [if_pos hc, List.pairwise_append]
      refine ⟨ih, List.pairwise_singleton _ _, fun a ha b hb => ?_⟩
      obtain ⟨w, -, rfl⟩ := mem_behindRun.1 ha
      rw [List.mem_singleton.1 hb, List.length_cons, List.length_append]
      omega
    · rw [if_neg hc]
      exact List.pairwise_singleton _ _

theorem takes_one (k : CharClass) : Takes (.atom (.one k)) fun w => ∃ c, w = [c] ∧ k.holds c := by
  intro size cs
  refine ⟨behindOne k cs, rfl, fun rest => ?_, pairwise_behindOne k cs⟩
  rw [mem_behindOne]
  constructor
  · rintro ⟨c, hc, rfl⟩
    exact ⟨[c], ⟨c, rfl, hc⟩, rfl⟩
  · rintro ⟨_, ⟨c, rfl, hc⟩, rfl⟩
    exact ⟨c, hc, rfl⟩

theorem takes_optional (k : CharClass) :
    Takes (.atom (.optional k)) fun w => w = [] ∨ ∃ c, w = [c] ∧ k.holds c := by
  intro size cs
  refine ⟨behindOne k cs ++ [cs], rfl, fun rest => ?_, ?_⟩
  · rw [List.mem_append, mem_behindOne, List.mem_singleton]
    constructor
    · rintro (⟨c, hc, rfl⟩ | rfl)
      · exact ⟨[c], .inr ⟨c, rfl, hc⟩, rfl⟩
      · exact ⟨[], .inl rfl, rfl⟩
    · rintro ⟨_, rfl | ⟨c, rfl, hc⟩, rfl⟩
      · exact .inr rfl
      · exact .inl ⟨c, hc, rfl⟩
  · rw [List.pairwise_append]
    refine ⟨pairwise_behindOne k cs, List.pairwise_singleton _ _, fun a ha b hb => ?_⟩
    obtain ⟨c, -, rfl⟩ := mem_behindOne.1 ha
    rw [List.mem_singleton.1 hb]
    simp

theorem takes_many (k : CharClass) : Takes (.atom (.many k)) fun w => ∀ c ∈ w, k.holds c :=
  fun _ cs => ⟨behindRun k cs, rfl, fun _ => mem_behindRun, pairwise_behindRun k cs⟩

/-- One expression after the other, where a longer start makes for a longer whole. -/
theorem Takes.seq {r s : Regex} {P Q : List Char → Prop} (hr : Takes r P) (hs : Takes s Q)
    (hlonger : ∀ u u' v v' rest rest', P u → P u' → Q v → Q v' →
      u ++ (v ++ rest) = u' ++ (v' ++ rest') → u'.length < u.length → rest.length < rest'.length) :
    Takes (r.seq s) fun w => ∃ u v, w = u ++ v ∧ P u ∧ Q v := by
  intro size cs
  obtain ⟨left, hways, hmem, hsorted⟩ := hr size cs
  choose behind hbehind using hs size
  refine ⟨left.flatMap behind, ?_, fun rest => ?_, ?_⟩
  · rw [ways, hways, List.flatMap_map, List.map_flatMap]
    simp only [(hbehind _).1, List.map_map]
    rfl
  · rw [List.mem_flatMap]
    constructor
    · rintro ⟨middle, hmiddle, hrest⟩
      obtain ⟨u, hu, rfl⟩ := (hmem middle).1 hmiddle
      obtain ⟨v, hv, rfl⟩ := ((hbehind middle).2.1 rest).1 hrest
      exact ⟨u ++ v, ⟨u, v, rfl, hu, hv⟩, by rw [List.append_assoc]⟩
    · rintro ⟨_, ⟨u, v, rfl, hu, hv⟩, hcs⟩
      rw [List.append_assoc] at hcs
      exact ⟨v ++ rest, (hmem _).2 ⟨u, hu, hcs⟩, ((hbehind _).2.1 rest).2 ⟨v, hv, rfl⟩⟩
  · -- In one block the first part is fixed and the second grows shorter; from block to block the first part does.
    rw [List.pairwise_flatMap]
    refine ⟨fun middle _ => (hbehind middle).2.2, hsorted.imp_of_mem ?_⟩
    intro a b ha hb hlt x hx y hy
    obtain ⟨u, hu, hua⟩ := (hmem a).1 ha
    obtain ⟨u', hu', hub⟩ := (hmem b).1 hb
    obtain ⟨v, hv, rfl⟩ := ((hbehind a).2.1 x).1 hx
    obtain ⟨v', hv', rfl⟩ := ((hbehind b).2.1 y).1 hy
    refine hlonger u u' v v' x y hu hu' hv hv' (hua.symm.trans hub) ?_
    have hlength := congrArg List.length (hua.symm.trans hub)
    simp only [List.length_append] at hlength hlt
    omega

theorem Takes.mono {r : Regex} {P Q : List Char → Prop} (h : Takes r P) (hPQ : ∀ w, P w ↔ Q w) :
    Takes r Q := by
  rwa [show Q = P from funext fun w => propext (hPQ w).symm]

/-- One or more characters of a class. -/
theorem takes_several (k : CharClass) : Takes (several k) (IsRun k.holds) := by
  refine ((takes_one k).seq (takes_many k) ?_).mono fun w => ?_
  · rintro _ _ v v' rest rest' ⟨c, rfl, -⟩ ⟨c', rfl, -⟩ - - - hlt
    simp at hlt
  · constructor
    · rintro ⟨_, v, rfl, ⟨c, rfl, hc⟩, hv⟩
      exact ⟨by simp, by simpa [hc] using hv⟩
    · rintro ⟨hne, hall⟩
      cases w with
      | nil => exact absurd rfl hne
      | cons c v => exact ⟨[c], v, rfl, ⟨c, rfl, hall c (by simp)⟩, fun d hd => hall d (by simp [hd])⟩

/-- What no other expression follows. -/
theorem Takes.last {r : Regex} {P : List Char → Prop} (h : Takes r P) : Takes (r.seq .empty) P := by
  refine (h.seq takes_empty ?_).mono fun w => ?_
  · rintro u u' _ _ rest rest' - - rfl rfl heq hlt
    have hlength := congrArg List.length heq
    simp only [List.length_append, List.length_nil] at hlength
    omega
  · simp

theorem takes_number : Takes (several .digit) (IsRun Text.isDecimalDigit) := takes_several .digit

theorem takes_decimal : Takes (.seq (several .digit)
    (.seq (.atom (.one (.only '.'))) (.seq (several .digit) .empty))) IsDecimal := by
  have hpoint : Takes (.seq (.atom (.one (.only '.'))) (.seq (several .digit) .empty))
      fun w => ∃ fraction, w = '.' :: fraction ∧ IsRun Text.isDecimalDigit fraction := by
    refine ((takes_one _).seq takes_number.last ?_).mono fun w => ?_
    · rintro _ _ v v' rest rest' ⟨c, rfl, -⟩ ⟨c', rfl, -⟩ - - - hlt
      simp at hlt
    · constructor
      · rintro ⟨_, v, rfl, ⟨c, rfl, hc⟩, hv⟩
        exact ⟨v, by simpa [CharClass.holds] using hc, hv⟩
      · rintro ⟨fraction, rfl, hfraction⟩
        exact ⟨['.'], fraction, rfl, ⟨'.', rfl, rfl⟩, hfraction⟩
  refine (takes_number.seq hpoint ?_).mono fun w => ?_
  · -- Behind fewer digits comes a digit and not the point.
    rintro u u' _ _ rest rest' ⟨-, hu⟩ - ⟨v, rfl, -⟩ ⟨v', rfl, -⟩ heq hlt
    rcases List.append_eq_append_iff.1 heq with ⟨more, rfl, -⟩ | ⟨more, rfl, hmore⟩
    · rw [List.length_append] at hlt
      omega
    · cases more with
      | nil => simp at hlt
      | cons d more =>
        have hd := hu d (by simp)
        rw [← (List.cons.inj hmore).1] at hd
        exact absurd hd (by decide)
  · constructor
    · rintro ⟨whole, _, rfl, hwhole, fraction, rfl, hfraction⟩
      exact ⟨whole, fraction, rfl, hwhole, hfraction⟩
    · rintro ⟨whole, fraction, rfl, hwhole, hfraction⟩
      exact ⟨whole, _, rfl, hwhole, fraction, rfl, hfraction⟩

theorem takes_signed {r : Regex} {P : List Char → Prop} (h : Takes r P)
    (hdigit : ∀ w, P w → ∃ d v, w = d :: v ∧ Text.isDecimalDigit d) :
    Takes (.seq (.atom (.optional (.only '-'))) r) (IsSigned P) := by
  refine ((takes_optional _).seq h ?_).mono fun w => ?_
  · -- Where a minus sign comes first, no digit does.
    rintro u u' v v' rest rest' hu hu' - hv' heq hlt
    have hu' : u' = [] := by
      rcases hu with rfl | ⟨c, rfl, -⟩
      · simp at hlt
      · exact List.length_eq_zero_iff.1 (Nat.lt_one_iff.1 hlt)
    subst hu'
    rcases hu with rfl | ⟨c, rfl, hc⟩
    · simp at hlt
    · obtain ⟨d, v', rfl, hd⟩ := hdigit v' hv'
      rw [← (List.cons.inj heq).1, of_decide_eq_true hc] at hd
      exact absurd hd (by decide)
  · constructor
    · rintro ⟨_, v, rfl, rfl | ⟨c, rfl, hc⟩, hv⟩
      · exact .inl hv
      · exact .inr ⟨v, by rw [of_decide_eq_true hc]; rfl, hv⟩
    · rintro (hw | ⟨v, rfl, hv⟩)
      · exact ⟨[], w, rfl, .inl rfl, hw⟩
      · exact ⟨['-'], v, rfl, .inr ⟨'-', rfl, rfl⟩, hv⟩

end Regex

theorem exists_digit_of_isRun {w : List Char} (h : IsRun Text.isDecimalDigit w) :
    ∃ d v, w = d :: v ∧ Text.isDecimalDigit d := by
  cases w with
  | nil => exact absurd rfl h.1
  | cons d v => exact ⟨d, v, rfl, h.2 d (by simp)⟩

theorem exists_digit_of_isDecimal {w : List Char} (h : IsDecimal w) :
    ∃ d v, w = d :: v ∧ Text.isDecimalDigit d := by
  obtain ⟨whole, fraction, rfl, hwhole, -⟩ := h
  obtain ⟨d, v, rfl, hd⟩ := exists_digit_of_isRun hwhole
  exact ⟨d, v ++ '.' :: fraction, rfl, hd⟩

/-! ## Slots -/

/-- The members of a slot whose written form stands at the front of `cs`, each with what it leaves, the
longest first. -/
structure Slot.Fills (s : Slot) (cs : List Char) (fillings : List (List Char × List Char)) : Prop where
  mem_iff : ∀ f, f ∈ fillings ↔ s.Holds f.1 ∧ cs = s.written f.1 ++ f.2
  sorted : fillings.Pairwise fun f g => g.1.length < f.1.length

namespace Slot

def waysBehind (size : Nat) (r : Regex) (fillings : List (List Char × List Char)) : List Regex.Way :=
  fillings.flatMap fun f => (r.ways size f.2).map fun w => ⟨f.1 :: w.captures, w.rest⟩

theorem take_of_eq_append {cs w rest : List Char} (h : cs = w ++ rest) :
    cs.take (cs.length - rest.length) = w := by
  rw [h, List.length_append, Nat.add_sub_cancel, List.take_left]

theorem exists_fills_of_takes {s : Slot} {e : Regex} (h : Regex.Takes e s.Holds)
    (hwritten : s.written = id) (hbefore : ∀ r, s.before r = .seq (.group e) r) (size : Nat)
    (cs : List Char) : ∃ fillings, s.Fills cs fillings ∧
      ∀ r, (s.before r).ways size cs = waysBehind size r fillings := by
  obtain ⟨left, hways, hmem, hsorted⟩ := h size cs
  refine ⟨left.map fun rest => (cs.take (cs.length - rest.length), rest), ⟨fun f => ?_, ?_⟩, fun r => ?_⟩
  · rw [hwritten, List.mem_map]
    constructor
    · rintro ⟨rest, hrest, rfl⟩
      obtain ⟨w, hw, rfl⟩ := (hmem rest).1 hrest
      dsimp only
      rw [take_of_eq_append rfl]
      exact ⟨hw, rfl⟩
    · rintro ⟨hw, hcs⟩
      exact ⟨f.2, (hmem f.2).2 ⟨f.1, hw, hcs⟩, by rw [take_of_eq_append hcs]; rfl⟩
  · rw [List.pairwise_map]
    refine hsorted.imp_of_mem fun {a b} ha hb hlt => ?_
    obtain ⟨w, -, hwa⟩ := (hmem a).1 ha
    obtain ⟨v, -, hvb⟩ := (hmem b).1 hb
    have hlength := congrArg List.length (hwa.symm.trans hvb)
    simp only [List.length_append] at hlength
    show (List.take _ _).length < (List.take _ _).length
    rw [take_of_eq_append hwa, take_of_eq_append hvb]
    omega
  · rw [hbefore, Regex.ways, Regex.ways, hways, List.map_map, List.flatMap_map, waysBehind,
      List.flatMap_map]
    rfl

theorem takes_unquoted :
    Regex.Takes (.seq (.atom (.many (.except '"'))) .empty) fun w => '"' ∉ w := by
  refine (Regex.takes_many _).last.mono fun w => ?_
  constructor
  · intro h hmem
    simpa [CharClass.holds] using h '"' hmem
  · intro h c hc
    exact decide_eq_true fun heq => h (heq ▸ hc)

/-- The quotes of a string stand outside of its group. -/
theorem exists_fills_string (size : Nat) (cs : List Char) : ∃ fillings, Slot.string.Fills cs fillings ∧
      ∀ r, (Slot.string.before r).ways size cs = waysBehind size r fillings := by
  let behindQuote := Regex.behindOne (.only '"')
  have hquote : ∀ ds rest, rest ∈ behindQuote ds ↔ ds = '"' :: rest := by
    intro ds rest
    rw [Regex.mem_behindOne]
    simp [CharClass.holds]
  -- A quote is matched in at most one way, so only the middle has an order.
  have hsingle : ∀ (ds : List Char) (R : List Char → List Char → Prop), (behindQuote ds).Pairwise R := by
    intro ds R
    refine (Regex.pairwise_behindOne _ ds).imp_of_mem fun {a b} ha hb hlt => ?_
    rw [hquote] at ha hb
    rw [(List.cons.inj (ha.symm.trans hb)).2] at hlt
    exact absurd hlt (Nat.lt_irrefl _)
  choose left hways hmem hsorted using takes_unquoted size
  refine ⟨(behindQuote cs).flatMap fun ds => (left ds).flatMap fun rest =>
    (behindQuote rest).map fun after => (List.take (ds.length - rest.length) ds, after),
    ⟨fun f => ?_, ?_⟩, fun r => ?_⟩
  · simp only [List.mem_flatMap, List.mem_map, hquote]
    constructor
    · rintro ⟨ds, rfl, rest, hrest, after, rfl, rfl⟩
      obtain ⟨w, hw, rfl⟩ := (hmem ds _).1 hrest
      dsimp only
      rw [take_of_eq_append rfl]
      exact ⟨hw, by simp [written]⟩
    · rintro ⟨hw, hcs⟩
      exact ⟨f.1 ++ '"' :: f.2, by simpa [written] using hcs, '"' :: f.2, (hmem _ _).2 ⟨f.1, hw, rfl⟩, f.2,
        rfl, by rw [take_of_eq_append rfl]⟩
  · rw [List.pairwise_flatMap]
    refine ⟨fun ds _ => ?_, hsingle _ _⟩
    rw [List.pairwise_flatMap]
    refine ⟨fun rest _ => ?_, (hsorted ds).imp_of_mem ?_⟩
    · rw [List.pairwise_map]
      exact hsingle _ _
    · intro a b ha hb hlt f hf g hg
      obtain ⟨w, -, rfl⟩ := (hmem ds a).1 ha
      obtain ⟨v, -, hv⟩ := (hmem _ b).1 hb
      obtain ⟨_, -, rfl⟩ := List.mem_map.1 hf
      obtain ⟨_, -, rfl⟩ := List.mem_map.1 hg
      have hlength := congrArg List.length hv
      simp only [List.length_append] at hlength
      show (List.take _ _).length < (List.take _ _).length
      rw [take_of_eq_append rfl, take_of_eq_append hv]
      omega
  · -- The group captures what was left out of `rest`, which is the word between the quotes.
    have hgroup : ∀ ds e, (Regex.seq (.group (.seq (.atom (.many (.except '"'))) .empty)) e).ways size ds =
        (left ds).flatMap fun rest => (e.ways size rest).map fun w =>
          ⟨ds.take (ds.length - rest.length) :: w.captures, w.rest⟩ := by
      intro ds e
      rw [Regex.ways, Regex.ways, hways, List.map_map, List.flatMap_map]
      rfl
    rw [before, Regex.ways_seq_atom, waysBehind, List.flatMap_assoc]
    refine List.flatMap_congr fun ds _ => ?_
    rw [hgroup, List.flatMap_assoc]
    refine List.flatMap_congr fun rest _ => ?_
    rw [Regex.ways_seq_atom, List.map_flatMap, List.flatMap_map]
    rfl

/-- A slot is matched by each of its members, the longest first, and captures it. -/
theorem exists_fills (s : Slot) (size : Nat) (cs : List Char) : ∃ fillings, s.Fills cs fillings ∧
    ∀ r, (s.before r).ways size cs = waysBehind size r fillings := by
  cases s with
  | int =>
    exact exists_fills_of_takes (Regex.takes_signed Regex.takes_number.last fun _ => exists_digit_of_isRun) rfl
      (fun _ => rfl) size cs
  | float =>
    exact exists_fills_of_takes (Regex.takes_signed Regex.takes_decimal fun _ => exists_digit_of_isDecimal) rfl
      (fun _ => rfl) size cs
  | string => exact exists_fills_string size cs
  | word => exact exists_fills_of_takes (Regex.takes_several .word).last rfl (fun _ => rfl) size cs
  | any => exact exists_fills_of_takes (Regex.takes_several .inline).last rfl (fun _ => rfl) size cs
  | custom name => exact exists_fills_of_takes (Regex.takes_several .inline).last rfl (fun _ => rfl) size cs

end Slot

/-! ## Patterns -/

/-- The ways to match a text whole are its cuts under the pieces, those whose earlier slots take more before the
others. -/
structure Piece.Tries (ps : List Piece) (cs : List Char) (ws : List Regex.Way) : Prop where
  mem_iff : ∀ captures, captures ∈ ws.map Regex.Way.captures ↔ Cuts ps captures cs
  sorted : ws.Pairwise fun w v => v.captures.map List.length < w.captures.map List.length

namespace Part

def body (parts : List Part) : Regex :=
  parts.foldr (fun part r => part.before r) (.seq (.atom .stop) .empty)

theorem tries_nil (size : Nat) (cs : List Char) : Piece.Tries [] cs ((body []).ways size cs) := by
  have hways : (body []).ways size cs = if cs = [] then [⟨[], cs⟩] else [] := by
    show (Regex.seq (.atom .stop) .empty).ways size cs = _
    rw [Regex.ways_seq_atom, Regex.Atom.behind]
    by_cases hcs : cs = [] <;> simp [hcs, Regex.ways]
  rw [hways]
  by_cases hcs : cs = []
  · rw [if_pos hcs]
    refine ⟨fun captures => ?_, List.pairwise_singleton _ _⟩
    rw [Piece.cuts_nil_iff, List.map_singleton, List.mem_singleton, and_iff_left hcs]
  · rw [if_neg hcs]
    refine ⟨fun captures => ?_, .nil⟩
    rw [Piece.cuts_nil_iff]
    simp [hcs]

theorem tries_char {parts : List Part} {size : Nat} (c : Char) (cs : List Char)
    (h : ∀ rest, Piece.Tries (parts.map piece) rest ((body parts).ways size rest)) :
    Piece.Tries (.char c :: parts.map piece) cs
      ((Regex.seq (.atom (.one (.only c))) (body parts)).ways size cs) := by
  rw [Regex.ways_seq_atom, Regex.Atom.behind]
  cases cs with
  | nil =>
    refine ⟨fun captures => ?_, .nil⟩
    rw [Piece.cuts_char_iff]
    simp [Regex.behindOne]
  | cons d ds =>
    rw [Regex.behindOne]
    by_cases hd : d = c
    · subst hd
      have hholds : (CharClass.only d).holds d := decide_eq_true rfl
      rw [if_pos hholds, List.flatMap_singleton]
      refine ⟨fun captures => ?_, (h ds).sorted⟩
      rw [(h ds).mem_iff, Piece.cuts_char_iff]
      simp
    · rw [if_neg (by simpa [CharClass.holds] using hd)]
      refine ⟨fun captures => ?_, .nil⟩
      rw [Piece.cuts_char_iff]
      simp [hd]

theorem tries_slot {parts : List Part} {size : Nat} (s : Slot) (cs : List Char)
    (h : ∀ rest, Piece.Tries (parts.map piece) rest ((body parts).ways size rest)) :
    Piece.Tries (.slot s :: parts.map piece) cs ((s.before (body parts)).ways size cs) := by
  obtain ⟨fillings, hfills, hways⟩ := s.exists_fills size cs
  rw [hways, Slot.waysBehind]
  refine ⟨fun captures => ?_, ?_⟩
  · rw [Piece.cuts_slot_iff]
    simp only [List.map_flatMap, List.map_map, List.mem_flatMap, List.mem_map, Function.comp_apply]
    constructor
    · rintro ⟨f, hf, w, hw, rfl⟩
      have hcut := ((h f.2).mem_iff w.captures).1 (List.mem_map_of_mem hw)
      exact ⟨f.1, w.captures, f.2, rfl, ((hfills.mem_iff f).1 hf).1, ((hfills.mem_iff f).1 hf).2, hcut⟩
    · rintro ⟨capture, more, rest, rfl, hholds, hcs, hmore⟩
      obtain ⟨w, hw, rfl⟩ := List.mem_map.1 (((h rest).mem_iff more).2 hmore)
      exact ⟨(capture, rest), (hfills.mem_iff _).2 ⟨hholds, hcs⟩, w, hw, rfl⟩
  · rw [List.pairwise_flatMap]
    refine ⟨fun f _ => ?_, hfills.sorted.imp ?_⟩
    · rw [List.pairwise_map]
      exact (h f.2).sorted.imp fun hlt => List.Lex.cons hlt
    · intro f g hlt w hw v hv
      obtain ⟨_, -, rfl⟩ := List.mem_map.1 hw
      obtain ⟨_, -, rfl⟩ := List.mem_map.1 hv
      exact List.Lex.rel hlt

theorem tries_body (parts : List Part) (size : Nat) (cs : List Char) :
    Piece.Tries (parts.map piece) cs ((body parts).ways size cs) := by
  induction parts generalizing cs with
  | nil => exact tries_nil size cs
  | cons part parts ih =>
    cases part with
    | literal c => exact tries_char c cs ih
    | slot s => exact tries_slot s cs ih
    | strayOpening offset => exact tries_char '{' cs ih
    | strayClosing offset => exact tries_char '}' cs ih

/-- A match starts at the start of the text alone. -/
theorem captures?_expression (parts : List Part) (text : List Char) :
    (expression parts).captures? text =
      ((body parts).ways text.length text).head?.map Regex.Way.captures := by
  have hways : ∀ cs, (expression parts).ways text.length cs =
      (if cs.length = text.length then [cs] else []).flatMap ((body parts).ways text.length) :=
    Regex.ways_seq_atom text.length .start (body parts)
  rw [Regex.captures?_eq_search, Regex.search]
  cases text with
  | nil =>
    rw [Regex.ends, List.findSome?_singleton, hways]
    simp
  | cons c cs =>
    have hshort : (Regex.ends cs).findSome? (fun rest =>
        (((expression parts).ways (c :: cs).length rest).head?).map Regex.Way.captures) = none := by
      rw [List.findSome?_eq_none_iff]
      intro rest hrest
      have hlt := Regex.length_le_of_mem_ends hrest
      rw [hways, if_neg (by rw [List.length_cons]; omega)]
      rfl
    rw [Regex.ends, List.findSome?_cons, hshort, hways, if_pos rfl, List.flatMap_singleton]
    cases ((body parts).ways (c :: cs).length (c :: cs)).head? <;> rfl

/-- The captures of a match are a cut, and any other cut has an earlier slot that takes less. -/
theorem captures?_greatest (parts : List Part) (cs : List Char) :
    match (expression parts).captures? cs with
    | some found => Piece.Cuts (parts.map piece) found cs ∧ ∀ other, Piece.Cuts (parts.map piece) other cs →
        other = found ∨ other.map List.length < found.map List.length
    | none => ∀ other, ¬ Piece.Cuts (parts.map piece) other cs := by
  obtain ⟨hmem, hsorted⟩ := tries_body parts cs.length cs
  rw [captures?_expression]
  cases hways : (body parts).ways cs.length cs with
  | nil =>
    intro other h
    have hother := (hmem other).2 h
    rw [hways] at hother
    exact absurd hother List.not_mem_nil
  | cons w ws =>
    rw [hways] at hmem hsorted
    refine ⟨(hmem _).1 List.mem_cons_self, fun other h => ?_⟩
    rcases List.mem_cons.1 ((hmem other).2 h) with heq | hlater
    · exact .inl heq
    · obtain ⟨v, hv, rfl⟩ := List.mem_map.1 hlater
      exact .inr (List.rel_of_pairwise_cons hsorted hv)

end Part

end Gherkin
