import Gherkin.Document.Reader
import Gherkin.Proofs.Text.LineEnds

/-!
# Places in a source

A location stands at a place of a source when it is what passing over the characters before the place
gives.  From such a location the readers of titles and descriptions read what the source holds there.
-/

namespace Gherkin

/-- Of the source a doc string only tells whether backticks stand at the token. -/
theorem Reader.docString_congr {source target : List Char} {t u : Token} (htext : u.text = t.text)
    (htype : u.contentType = t.contentType)
    (h : ((Text.dropBytes? u.location.offset target).bind
        (Text.dropWord? Delimiter.backticks.chars)).isSome =
      ((Text.dropBytes? t.location.offset source).bind
        (Text.dropWord? Delimiter.backticks.chars)).isSome) :
    Reader.docString target u = Reader.docString source t := by
  unfold Reader.docString
  rw [htext, htype]
  cases hu : (Text.dropBytes? u.location.offset target).bind
      (Text.dropWord? Delimiter.backticks.chars) with
  | none =>
    rw [hu, Option.isSome_none] at h
    rw [Option.isNone_iff_eq_none.1 (Option.isSome_eq_false_iff.1 h.symm)]
  | some rest =>
    rw [hu, Option.isSome_some] at h
    rcases Option.isSome_iff_exists.1 h.symm with ⟨rest', hrest⟩
    rw [hrest]

namespace Location

theorem offset_past (loc : Location) (cs : List Char) :
    (loc.past cs).offset = loc.offset + Text.byteLength cs := by
  induction cs generalizing loc with
  | nil => rfl
  | cons c cs ih =>
    have hnext : (loc.next c).offset = loc.offset + c.utf8Size := by
      unfold next
      by_cases hc : c = '\n'
      · rw [if_pos hc, hc]
        rfl
      · rw [if_neg hc]
    rw [past_cons, ih, hnext, Text.byteLength_cons, Nat.add_assoc]

/-- The source holds `cs` from the location on. -/
def At (source : List Char) (loc : Location) (cs : List Char) : Prop :=
  ∃ before, (Scan.opening source).2.2 = before ++ cs ∧ loc = (Scan.opening source).1.past before

theorem at_opening (source : List Char) :
    (Scan.opening source).1.At source (Scan.opening source).2.2 := ⟨[], rfl, rfl⟩

theorem At.past {source as bs : List Char} {loc : Location} (h : loc.At source (as ++ bs)) :
    (loc.past as).At source bs := by
  rcases h with ⟨before, hsource, rfl⟩
  exact ⟨before ++ as, by rw [hsource, List.append_assoc], by rw [past_append]⟩

/-- The mark before the first line counts in offsets only. -/
theorem opening_eq_append (source : List Char) : ∃ mark, (mark = [] ∨ mark = [Scan.byteOrderMark]) ∧
    source = mark ++ (Scan.opening source).2.2 ∧
      (Scan.opening source).1.offset = Text.byteLength mark := by
  unfold Scan.opening
  cases source with
  | nil => exact ⟨[], Or.inl rfl, rfl, rfl⟩
  | cons c cs =>
    by_cases hc : c = Scan.byteOrderMark
    · simp only [hc, if_true]
      exact ⟨[Scan.byteOrderMark], Or.inr rfl, rfl, rfl⟩
    · simp only [if_neg hc]
      exact ⟨[], Or.inl rfl, rfl, rfl⟩

theorem At.eq_append {source cs : List Char} {loc : Location} (h : loc.At source cs) :
    ∃ before, source = before ++ cs ∧ loc.offset = Text.byteLength before := by
  rcases h with ⟨before, hsource, rfl⟩
  rcases opening_eq_append source with ⟨mark, -, hmark, hoffset⟩
  refine ⟨mark ++ before, ?_, ?_⟩
  · rw [List.append_assoc, ← hsource]
    exact hmark
  · rw [offset_past, hoffset, Text.byteLength_append]

theorem At.dropBytes? {source cs : List Char} {loc : Location} (h : loc.At source cs) :
    Text.dropBytes? loc.offset source = some cs := by
  rcases h.eq_append with ⟨before, rfl, hoffset⟩
  rw [hoffset, Text.dropBytes?_byteLength_append]

/-- Text read from a location is what the source holds there, up to the end of the line. -/
theorem At.textFrom {source cs : List Char} {loc : Location} (h : loc.At source cs) :
    Reader.textFrom source loc.offset = String.ofList (Text.trim (cs.takeWhile (· ≠ '\n'))) := by
  unfold Reader.textFrom
  rw [h.dropBytes?]
  rfl

theorem At.textFrom_line {source body rest : List Char} {loc : Location}
    (h : loc.At source (body ++ rest)) (hbody : '\n' ∉ body) (hrest : Text.AtLineEnd rest) :
    Reader.textFrom source loc.offset = String.ofList (Text.trim body) := by
  rw [h.textFrom, Text.trim_takeWhile_append hbody hrest]

theorem At.docString {source cs : List Char} {t : Token} {delimiter : Delimiter}
    (h : t.location.At source (delimiter.chars ++ cs)) :
    Reader.docString source t = ⟨t.text, t.contentType, delimiter⟩ := by
  unfold Reader.docString
  rw [h.dropBytes?]
  cases delimiter <;> rfl

end Location

end Gherkin
