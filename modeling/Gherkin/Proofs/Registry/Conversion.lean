import Gherkin.Proofs.Decimal.Reading
import Gherkin.Proofs.Pattern.Measure
import Gherkin.Proofs.Registry.Resolution

/-!
# The values of captured texts

A captured number is converted if it is written in ASCII digits and, for a whole number, if it fits into 64
bits; then the value is exactly what is written.  The first capture that is not converted makes the look-up
fail.
-/

namespace Gherkin

/-! ## Slots -/

namespace Slot

/-- The captured text of a number has no other digits than ASCII ones, and a whole number fits into 64
bits. -/
def Converts : Slot → String → Prop
  | .int, text => Decimal.AsciiDigits text.toList ∧
      ∃ i, Decimal.Writes text.toList i ∧ -2 ^ 63 ≤ i ∧ i < 2 ^ 63
  | .float, text => Decimal.AsciiDigits text.toList
  | _, _ => True

/-- The value is the number that is written, and anything else but a number is the text itself. -/
def Means : Slot → String → Value → Prop
  | .int, text, v => ∃ i, v = .int i ∧ Decimal.Writes text.toList i.toInt
  | .float, text, v => ∃ x, v = .float x ∧ Decimal.WritesDecimal text.toList x
  | _, text, v => v = .string text

theorem value?_of_holds {s : Slot} {text : String} (h : s.Holds text.toList) :
    match s.value? text with
    | some v => s.Converts text ∧ s.Means text v
    | none => ¬ s.Converts text := by
  cases s with
  | int =>
    have hread := Decimal.int?_of_holds h
    have hvalue : Slot.int.value? text = (Decimal.int? text.toList).bind Value.ofInt? := rfl
    rw [hvalue]
    cases hint : Decimal.int? text.toList with
    | none =>
      rw [hint] at hread
      exact fun hconverts => hread hconverts.1
    | some i =>
      rw [hint] at hread
      obtain ⟨hascii, hwrites⟩ := hread
      show match Value.ofInt? i with
        | some v => Slot.int.Converts text ∧ Slot.int.Means text v
        | none => ¬ Slot.int.Converts text
      have hmin : Int64.minValue.toInt = -2 ^ 63 := by decide
      have hmax : Int64.maxValue.toInt = 2 ^ 63 - 1 := by decide
      unfold Value.ofInt?
      rw [hmin, hmax]
      by_cases hfits : -2 ^ 63 ≤ i ∧ i ≤ 2 ^ 63 - 1
      · rw [if_pos hfits]
        have hlt : i < 2 ^ 63 := by omega
        refine ⟨⟨hascii, i, hwrites, hfits.1, hlt⟩, Int64.ofInt i, rfl, ?_⟩
        rw [Int64.toInt_ofInt_of_le hfits.1 hlt]
        exact hwrites
      · rw [if_neg hfits]
        rintro ⟨-, j, hj, hlow, hhigh⟩
        -- The text writes one integer only.
        have hsame := Decimal.int?_of_writes hj
        rw [hint] at hsame
        rw [← Option.some.inj hsame] at hlow hhigh
        exact hfits ⟨hlow, by omega⟩
  | float =>
    have hread := Decimal.binary64?_of_holds h
    have hvalue : Slot.float.value? text = (Decimal.binary64? text.toList).map Value.float := rfl
    rw [hvalue]
    cases hfloat : Decimal.binary64? text.toList with
    | none =>
      rw [hfloat] at hread
      exact hread
    | some x =>
      rw [hfloat] at hread
      exact ⟨hread.1, x, rfl, hread.2⟩
  | string | word | any | custom => exact ⟨trivial, rfl⟩

/-- The values of captured texts are converted one by one, up to the first that does not convert. -/
theorem values_of_holds (index : Nat) {pairs : List (Slot × String)}
    (h : ∀ x ∈ pairs, x.1.Holds x.2.toList) :
    match Slot.values index pairs with
    | .ok values => (∀ x ∈ pairs, x.1.Converts x.2) ∧
        List.Forall₂ (fun (x : Slot × String) v => x.1.Means x.2 v) pairs values
    | .error e => ∃ before after, pairs = before ++ (e.slot, e.text) :: after ∧
        e.index = index + before.length ∧ (∀ x ∈ before, x.1.Converts x.2) ∧ ¬ e.slot.Converts e.text := by
  -- The index of an error counts from the front, so the induction is over all `index`.
  induction pairs generalizing index with
  | nil => exact ⟨by simp, .nil⟩
  | cons x pairs ih =>
    obtain ⟨s, text⟩ := x
    have hvalue := value?_of_holds (h _ List.mem_cons_self)
    have hrest := ih (index + 1) fun x hx => h x (List.mem_cons_of_mem _ hx)
    dsimp only at hvalue
    rw [Slot.values]
    cases hs : s.value? text with
    | none =>
      rw [hs] at hvalue
      exact ⟨[], pairs, rfl, rfl, by simp, hvalue⟩
    | some v =>
      rw [hs] at hvalue
      obtain ⟨hconverts, hmeans⟩ := hvalue
      dsimp only
      cases hvalues : Slot.values (index + 1) pairs with
      | ok values =>
        rw [hvalues] at hrest
        exact ⟨List.forall_mem_cons.2 ⟨hconverts, hrest.1⟩, .cons hmeans hrest.2⟩
      | error e =>
        rw [hvalues] at hrest
        obtain ⟨before, after, hpairs, hindex, hbefore, hfails⟩ := hrest
        refine ⟨(s, text) :: before, after, by rw [hpairs, List.cons_append], ?_,
          List.forall_mem_cons.2 ⟨hconverts, hbefore⟩, hfails⟩
        rw [List.length_cons]
        omega

end Slot

/-! ## Look-ups -/

namespace Registry

variable {World : Type}

/-- The captures of the winner are converted, each to what it writes, if all of them can be; or else the
look-up fails with the first that cannot.  The captures are those of the slots, in their order. -/
theorem find_converts {r : Registry World} {text : String} {index : Nat} {d : Definition World}
    (h : Wins text r.definitions index d) : ∃ captures, d.pattern.captures? text = some captures ∧
      List.Forall₂ (fun (s : Slot) (capture : String) => s.Holds capture.toList) d.pattern.slots captures ∧
      ((∃ found, (r.find text).1 = .ok found) ↔
        ∀ x ∈ d.pattern.slots.zip captures, x.1.Converts x.2) ∧
      (∀ found, (r.find text).1 = .ok found → ∃ values, found = some ⟨d, values⟩ ∧
        List.Forall₂ (fun (x : Slot × String) v => x.1.Means x.2 v) (d.pattern.slots.zip captures)
          values) ∧
      ∀ e, (r.find text).1 = .error e → d.pattern.slots[e.index]? = some e.slot ∧
        captures[e.index]? = some e.text ∧ ¬ e.slot.Converts e.text ∧
        ∀ x ∈ (d.pattern.slots.zip captures).take e.index, x.1.Converts x.2 := by
  obtain ⟨captures, hcaptures, hfind⟩ := find_of_wins h
  have hholds : List.Forall₂ (fun (s : Slot) (capture : String) => s.Holds capture.toList)
      d.pattern.slots captures := Pattern.forall₂_of_captures? hcaptures
  have hpairs : ∀ x ∈ d.pattern.slots.zip captures, x.1.Holds x.2.toList :=
    fun _ hx => (List.forall₂_iff_zip.1 hholds).2 hx
  have hvalues := Slot.values_of_holds 0 hpairs
  refine ⟨captures, hcaptures, hholds, ?_⟩
  rw [hfind]
  -- All values convert, or `e` is the first that does not.
  cases hconverted : Slot.values 0 (d.pattern.slots.zip captures) with
  | ok values =>
    rw [hconverted] at hvalues
    obtain ⟨hconverts, hmeans⟩ := hvalues
    refine ⟨iff_of_true ⟨_, rfl⟩ hconverts, fun found hfound => ⟨values, ?_, hmeans⟩, fun e he => ?_⟩
    · exact (Except.ok.inj hfound).symm
    · cases he
  | error e =>
    rw [hconverted] at hvalues
    obtain ⟨before, after, hsplit, hindex, hbefore, hfails⟩ := hvalues
    rw [Nat.zero_add] at hindex
    have hplace : (d.pattern.slots.zip captures)[e.index]? = some (e.slot, e.text) := by
      rw [hsplit, hindex]
      simp
    refine ⟨iff_of_false (by rintro ⟨found, hfound⟩; cases hfound) fun hall => ?_,
      fun found hfound => (by cases hfound), fun e' he => ?_⟩
    · exact hfails (hall _ (List.mem_of_getElem? hplace))
    · rw [← Except.error.inj he]
      obtain ⟨hslot, hcapture⟩ := List.getElem?_zip_eq_some.1 hplace
      refine ⟨hslot, hcapture, hfails, ?_⟩
      rw [hsplit, hindex, List.take_left]
      exact hbefore

set_option maxRecDepth 4000 in
/-- Minus nothing and the greatest integer convert, written with a leading zero, and a digit of another
script does not; it is reported before the integer behind it, which is too great. -/
theorem find_converts_at_bounds : ∃ (r : Registry Unit) (d : Definition Unit),
    Wins "-0 09223372036854775807 \"é\"" r.definitions 0 d ∧
    (r.find "-0 09223372036854775807 \"é\"").1 =
      .ok (some ⟨d, [.int 0, .int 9223372036854775807, .string "é"]⟩) ∧
    Slot.int.Converts "09223372036854775807" ∧
    Wins "\u0663 9223372036854775808 \"\"" r.definitions 0 d ∧
    (r.find "\u0663 9223372036854775808 \"\"").1 = .error ⟨0, "\u0663", .int⟩ ∧
    ¬ Slot.int.Converts "\u0663" := by
  let handler : Handler Unit := fun _ s => (.ok (), s)
  let d : Definition Unit := ⟨.ofParts "\x7bint\x7d \x7bint\x7d \x7bstring\x7d"
    [.slot .int, .literal ' ', .slot .int, .literal ' ', .slot .string], none, handler, ⟨"steps", 1⟩, false⟩
  let r : Registry Unit := { definitions := [d] }
  have hmatch : ∀ text captures, r.resolve text = some ⟨d, 0, captures, 1⟩ →
      Wins text r.definitions 0 d ∧ d.pattern.captures? text = some captures ∧
        (r.find text).1 = (Slot.values 0 (d.pattern.slots.zip captures)).map fun values =>
          some ⟨d, values⟩ := by
    intro text captures hresolve
    obtain ⟨hwins, hcaptures, -⟩ := wins_of_resolve hresolve
    refine ⟨hwins, hcaptures, ?_⟩
    unfold find
    rw [hresolve]
  obtain ⟨hbounds, hthree, hfound⟩ := hmatch "-0 09223372036854775807 \"é\""
    ["-0", "09223372036854775807", "é"] (by cbv)
  obtain ⟨hother, -, hfails⟩ := hmatch "\u0663 9223372036854775808 \"\""
    ["\u0663", "9223372036854775808", ""] (by cbv)
  rw [show Slot.values 0 (d.pattern.slots.zip ["-0", "09223372036854775807", "é"]) =
    .ok [.int 0, .int 9223372036854775807, .string "é"] by cbv] at hfound
  rw [show Slot.values 0 (d.pattern.slots.zip ["\u0663", "9223372036854775808", ""]) =
    .error ⟨0, "\u0663", .int⟩ by cbv] at hfails
  obtain ⟨captures, hcaptures, -, hiff, -⟩ := find_converts hbounds
  obtain rfl := Option.some.inj (hcaptures.symm.trans hthree)
  obtain ⟨_, -, -, -, -, herror⟩ := find_converts hother
  have hsecond : (Slot.int, "09223372036854775807") ∈
      d.pattern.slots.zip ["-0", "09223372036854775807", "é"] :=
    List.mem_cons_of_mem _ List.mem_cons_self
  exact ⟨r, d, hbounds, hfound, hiff.1 ⟨_, hfound⟩ _ hsecond, hother, hfails, (herror _ hfails).2.2.1⟩

end Registry

end Gherkin
