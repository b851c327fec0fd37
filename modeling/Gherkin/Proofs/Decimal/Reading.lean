import Gherkin.Decimal.Reading
import Gherkin.Proofs.Pattern.Cut

/-!
# Numbers as they are read

A number may be captured in the digits of any script, and in any number of digits.  It is read only if the
digits are ASCII ones; then what is read is exactly what is written.
-/

namespace Gherkin.Decimal

/-! ## What is written -/

def numeral (ds : List Char) : Nat := Nat.ofDigits 10 (ds.reverse.map fun c => c.toNat - '0'.toNat)

theorem value_eq_numeral (ds : List Char) : value ds = numeral ds := by
  induction ds using List.reverseRecOn with
  | nil => rfl
  | append_singleton ds c ih =>
    have hvalue : value (ds ++ [c]) = 10 * value ds + (c.toNat - '0'.toNat) := by
      unfold value
      rw [List.foldl_append]
      rfl
    have hnumeral : numeral (ds ++ [c]) = (c.toNat - '0'.toNat) + 10 * numeral ds := by
      unfold numeral
      rw [List.reverse_append, List.reverse_singleton, List.singleton_append, List.map_cons,
        Nat.ofDigits_cons]
    rw [hvalue, hnumeral, ih, Nat.add_comm]

def signed (negative : Bool) (cs : List Char) : List Char := if negative then '-' :: cs else cs

/-- The integer that a text writes in ASCII digits, perhaps with a minus sign. -/
def Writes (cs : List Char) (i : Int) : Prop :=
  ∃ negative ds, cs = signed negative ds ∧ IsRun Char.isDigit ds ∧
    i = if negative then -(numeral ds : Int) else numeral ds

/-- The decimal that a text writes in ASCII digits, to the nearest number. -/
def WritesDecimal (cs : List Char) (x : Binary64) : Prop :=
  ∃ negative whole fraction, cs = signed negative (whole ++ '.' :: fraction) ∧
    IsRun Char.isDigit whole ∧ IsRun Char.isDigit fraction ∧
    x = .ofDecimal negative (numeral (whole ++ fraction)) (-fraction.length)

def AsciiDigits (cs : List Char) : Prop := ∀ c ∈ cs, Text.isDecimalDigit c → c.isDigit

/-! ## Digits and signs -/

theorem isSigned_iff {P : List Char → Prop} {cs : List Char} :
    IsSigned P cs ↔ ∃ negative ds, cs = signed negative ds ∧ P ds := by
  constructor
  · rintro (h | ⟨ds, rfl, h⟩)
    · exact ⟨false, cs, rfl, h⟩
    · exact ⟨true, ds, rfl, h⟩
  · rintro ⟨negative, ds, rfl, h⟩
    cases negative with
    | false => exact Or.inl h
    | true => exact Or.inr ⟨ds, rfl, h⟩

variable {negative : Bool} {cs ds whole fraction : List Char} {d : Char}

theorem toLower_of_isDecimalDigit (hd : Text.isDecimalDigit d) : d.toLower = d := by
  have hcode : d.toNat ≤ 57 ∨ 128 ≤ d.toNat := by
    unfold Text.isDecimalDigit at hd
    rcases Bool.or_eq_true_iff.1 hd with hdigit | hother
    · simp only [Char.isDigit, Bool.and_eq_true, decide_eq_true_eq, UInt32.le_iff_toNat_le] at hdigit
      exact Or.inl hdigit.2
    · rw [Bool.and_eq_true, decide_eq_true_eq] at hother
      exact Or.inr hother.1
  unfold Char.toLower
  rw [dif_neg]
  rintro ⟨hlow, hhigh⟩
  have hlow' : 65 ≤ d.toNat := hlow
  have hhigh' : d.toNat ≤ 90 := hhigh
  omega

theorem asciiDigits_signed : AsciiDigits (signed negative ds) ↔ AsciiDigits ds := by
  cases negative with
  | false => exact Iff.rfl
  | true =>
    have hminus : Text.isDecimalDigit '-' → '-'.isDigit := by decide
    exact ⟨fun h c hc => h c (List.mem_cons_of_mem _ hc), fun h c hc hdigit => by
      rcases List.mem_cons.1 hc with rfl | hc
      · exact hminus hdigit
      · exact h c hc hdigit⟩

theorem asciiDigits_iff (hds : ∀ c ∈ ds, Text.isDecimalDigit c) : AsciiDigits ds ↔ ∀ c ∈ ds, c.isDigit :=
  ⟨fun h c hc => h c hc (hds c hc), fun h c hc _ => h c hc⟩

theorem sign_signed (hd : Text.isDecimalDigit d) : sign (signed negative (d :: ds)) = (negative, d :: ds) := by
  cases negative with
  | true => rfl
  | false =>
    show sign (d :: ds) = (false, d :: ds)
    unfold sign
    split
    case h_1 heq =>
      rw [(List.cons.inj heq).1] at hd
      exact absurd hd (by decide)
    case h_2 heq =>
      rw [(List.cons.inj heq).1] at hd
      exact absurd hd (by decide)
    case h_3 => rfl

/-! ## Whole numbers -/

theorem nat?_of_isRun (h : IsRun Char.isDigit ds) : nat? ds = some (numeral ds) := by
  unfold nat?
  rw [if_neg, value_eq_numeral]
  have hall : ds.all Char.isDigit = true := List.all_eq_true.2 h.2
  simp [hall, h.1]

theorem nat?_eq_none (h : ¬ ∀ c ∈ ds, c.isDigit) : nat? ds = none := by
  unfold nat?
  rw [if_pos]
  have hall : ds.all Char.isDigit = false := by
    rw [← Bool.not_eq_true, List.all_eq_true]
    exact h
  simp [hall]

theorem int?_signed (hd : Text.isDecimalDigit d) : int? (signed negative (d :: ds)) =
    (nat? (d :: ds)).map fun n => if negative then -(n : Int) else n := by
  unfold int?
  rw [sign_signed hd]

theorem int?_of_writes {i : Int} (h : Writes cs i) : int? cs = some i := by
  obtain ⟨negative, ds, rfl, hrun, rfl⟩ := h
  obtain ⟨d, more, rfl⟩ := List.exists_cons_of_ne_nil hrun.1
  have hd : Text.isDecimalDigit d := Text.isDecimalDigit_of_isDigit (hrun.2 d List.mem_cons_self)
  rw [int?_signed hd, nat?_of_isRun hrun]
  rfl

/-- A whole number in the digits of any script is read if the digits are ASCII ones, and as what it
writes. -/
theorem int?_of_holds (h : Slot.int.Holds cs) :
    match int? cs with
    | some i => AsciiDigits cs ∧ Writes cs i
    | none => ¬ AsciiDigits cs := by
  obtain ⟨negative, ds, rfl, hne, hds⟩ := isSigned_iff.1 h
  rw [asciiDigits_signed, asciiDigits_iff hds]
  by_cases hascii : ∀ c ∈ ds, c.isDigit
  · have hwrites : Writes (signed negative ds) (if negative then -(numeral ds : Int) else numeral ds) :=
      ⟨negative, ds, rfl, ⟨hne, hascii⟩, rfl⟩
    rw [int?_of_writes hwrites]
    exact ⟨hascii, hwrites⟩
  · obtain ⟨d, more, rfl⟩ := List.exists_cons_of_ne_nil hne
    rw [int?_signed (hds d List.mem_cons_self), nat?_eq_none hascii]
    exact hascii

/-! ## Decimals -/

/-- What the digits before a point and behind it make, if only an exponent can follow them. -/
theorem unsigned?_of_point (hne : whole ≠ []) (hwhole : ∀ c ∈ whole, c.isDigit) :
    unsigned? (whole ++ '.' :: fraction) =
      match fraction.dropWhile Char.isDigit with
      | [] => some (value (whole ++ fraction.takeWhile Char.isDigit),
          -((fraction.takeWhile Char.isDigit).length : Int))
      | e :: rest =>
        if e = 'e' || e = 'E' then
          (int? rest).map fun n => (value (whole ++ fraction.takeWhile Char.isDigit),
            n + -((fraction.takeWhile Char.isDigit).length : Int))
        else none := by
  have hpoint : ¬ '.'.isDigit := by decide
  have hempty : whole.isEmpty = false := by simpa using hne
  unfold unsigned?
  rw [List.takeWhile_append_of_pos hwhole, List.dropWhile_append_of_pos hwhole,
    List.takeWhile_cons_of_neg hpoint, List.dropWhile_cons_of_neg hpoint, List.append_nil]
  dsimp only
  rw [hempty]
  rfl

theorem unsigned?_of_isRun (hwhole : IsRun Char.isDigit whole) (hfraction : IsRun Char.isDigit fraction) :
    unsigned? (whole ++ '.' :: fraction) =
      some (numeral (whole ++ fraction), -(fraction.length : Int)) := by
  rw [unsigned?_of_point hwhole.1 hwhole.2, List.takeWhile_eq_self_iff.2 hfraction.2,
    List.dropWhile_eq_nil_iff.2 hfraction.2, value_eq_numeral]

/-- Behind the ASCII digits of a run the first other digit stands. -/
theorem exists_dropWhile_eq_cons (hds : ∀ c ∈ ds, Text.isDecimalDigit c) (h : ¬ ∀ c ∈ ds, c.isDigit) :
    ∃ c rest, ds.dropWhile Char.isDigit = c :: rest ∧ c ≠ '.' ∧ c ≠ 'e' ∧ c ≠ 'E' := by
  cases hdrop : ds.dropWhile Char.isDigit with
  | nil => exact absurd (List.dropWhile_eq_nil_iff.1 hdrop) h
  | cons c rest =>
    have hmem : c ∈ ds.dropWhile Char.isDigit := by
      rw [hdrop]
      exact List.mem_cons_self
    have hc : Text.isDecimalDigit c := hds c ((List.dropWhile_suffix _).subset hmem)
    refine ⟨c, rest, rfl, ?_, ?_, ?_⟩
    all_goals
      rintro rfl
      exact absurd hc (by decide)

theorem unsigned?_eq_none (hne : whole ≠ []) (hwhole : ∀ c ∈ whole, Text.isDecimalDigit c)
    (hfraction : ∀ c ∈ fraction, Text.isDecimalDigit c)
    (h : ¬ ∀ c ∈ whole ++ fraction, c.isDigit) : unsigned? (whole ++ '.' :: fraction) = none := by
  by_cases hascii : ∀ c ∈ whole, c.isDigit
  · have hother : ¬ ∀ c ∈ fraction, c.isDigit := fun hall => h fun c hc =>
      (List.mem_append.1 hc).elim (hascii c) (hall c)
    obtain ⟨c, rest, hdrop, -, he, hE⟩ := exists_dropWhile_eq_cons hfraction hother
    rw [unsigned?_of_point hne hascii, hdrop]
    simp [he, hE]
  · obtain ⟨c, rest, hdrop, hdot, he, hE⟩ := exists_dropWhile_eq_cons hwhole hascii
    have hrest : (whole ++ '.' :: fraction).dropWhile Char.isDigit = c :: (rest ++ '.' :: fraction) := by
      rw [List.dropWhile_append, hdrop]
      rfl
    unfold unsigned?
    dsimp only
    rw [hrest]
    split
    case h_1 heq => exact absurd (List.cons.inj heq).1 hdot
    case h_2 =>
      dsimp only
      rw [if_neg (c := (decide (c = 'e') || decide (c = 'E')) = true) (by simp [he, hE])]
      exact ite_self _

/-- No word for infinity, or for no number, starts with a digit. -/
theorem binary64?_signed (hd : Text.isDecimalDigit d) : binary64? (signed negative (d :: ds)) =
    (unsigned? (d :: ds)).map fun x => .ofDecimal negative x.1 x.2 := by
  have hword : ∀ (c : Char) (word : List Char), Text.isDecimalDigit c = false →
      String.ofList ((d :: ds).map Char.toLower) ≠ String.ofList (c :: word) := by
    intro c word hc heq
    rw [String.ofList_inj, List.map_cons, toLower_of_isDecimalDigit hd] at heq
    rw [(List.cons.inj heq).1, hc] at hd
    cases hd
  unfold binary64?
  rw [sign_signed hd]
  dsimp only
  split
  case h_1 heq => exact absurd heq (hword 'i' ['n', 'f'] (by decide))
  case h_2 heq => exact absurd heq (hword 'i' ['n', 'f', 'i', 'n', 'i', 't', 'y'] (by decide))
  case h_3 heq => exact absurd heq (hword 'n' ['a', 'n'] (by decide))
  case h_4 => rfl

theorem asciiDigits_point_iff (hwhole : ∀ c ∈ whole, Text.isDecimalDigit c)
    (hfraction : ∀ c ∈ fraction, Text.isDecimalDigit c) :
    AsciiDigits (whole ++ '.' :: fraction) ↔ ∀ c ∈ whole ++ fraction, c.isDigit := by
  constructor
  · intro h c hc
    rcases List.mem_append.1 hc with hc | hc
    · exact h c (by simp [hc]) (hwhole c hc)
    · exact h c (by simp [hc]) (hfraction c hc)
  · intro h c hc hdigit
    rw [List.mem_append, List.mem_cons] at hc
    rcases hc with hc | rfl | hc
    · exact h c (List.mem_append_left _ hc)
    · exact absurd hdigit (by decide)
    · exact h c (List.mem_append_right _ hc)

/-- A decimal in the digits of any script is read if the digits are ASCII ones, and as what it writes. -/
theorem binary64?_of_holds (h : Slot.float.Holds cs) :
    match binary64? cs with
    | some x => AsciiDigits cs ∧ WritesDecimal cs x
    | none => ¬ AsciiDigits cs := by
  obtain ⟨negative, _, rfl, whole, fraction, rfl, ⟨hne, hwhole⟩, hne', hfraction⟩ := isSigned_iff.1 h
  have hread : binary64? (signed negative (whole ++ '.' :: fraction)) =
      (unsigned? (whole ++ '.' :: fraction)).map fun x => .ofDecimal negative x.1 x.2 := by
    obtain ⟨d, more, rfl⟩ := List.exists_cons_of_ne_nil hne
    exact binary64?_signed (hwhole d List.mem_cons_self)
  rw [hread, asciiDigits_signed, asciiDigits_point_iff hwhole hfraction]
  by_cases hascii : ∀ c ∈ whole ++ fraction, c.isDigit
  · have hrun : IsRun Char.isDigit whole := ⟨hne, fun c hc => hascii c (List.mem_append_left _ hc)⟩
    have hrun' : IsRun Char.isDigit fraction := ⟨hne', fun c hc => hascii c (List.mem_append_right _ hc)⟩
    rw [unsigned?_of_isRun hrun hrun']
    exact ⟨hascii, negative, whole, fraction, rfl, hrun, hrun', rfl⟩
  · rw [unsigned?_eq_none hne hwhole hfraction hascii]
    exact hascii

end Gherkin.Decimal
