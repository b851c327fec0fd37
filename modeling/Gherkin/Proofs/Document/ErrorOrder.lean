import Gherkin.Document.Source
import Gherkin.Proofs.Document.Relocation
import Gherkin.Proofs.Token.Concatenation

/-!
# The order of errors

The errors of a document are put in the order of their locations.  Of those that have a property the
order is the one that they get on their own, and moving all of them along keeps it.
-/

namespace Gherkin

namespace Location

theorem le_iff {a b : Location} : a.le b = true ↔ a.line < b.line ∨
    a.line = b.line ∧ (a.column < b.column ∨ a.column = b.column ∧ a.offset ≤ b.offset) := by
  unfold le
  simp only [Bool.or_eq_true, Bool.and_eq_true, decide_eq_true_eq, beq_iff_eq]

theorem le_total (a b : Location) : (a.le b || b.le a) = true := by
  rw [Bool.or_eq_true, le_iff, le_iff]
  omega

theorem le_trans (a b c : Location) (hab : a.le b = true) (hbc : b.le c = true) : a.le c = true := by
  rw [le_iff] at *
  omega

theorem le_behind (as : List Char) (a b : Location) :
    (behind as a).le (behind as b) = a.le b := by
  rw [Bool.eq_iff_iff, le_iff, le_iff]
  simp only [behind, moved]
  omega

end Location

namespace ParseError

theorem pairwise_inOrder (es : List ParseError) :
    (inOrder es).Pairwise fun a b => a.location.le b.location = true :=
  List.pairwise_mergeSort (fun a b c => Location.le_trans a.location b.location c.location)
    (fun a b => Location.le_total a.location b.location) es

/-- Another error goes before those that it is not behind. -/
theorem exists_inOrder_cons (e : ParseError) (es : List ParseError) : ∃ before after,
    inOrder (e :: es) = before ++ e :: after ∧ inOrder es = before ++ after ∧
      (∀ x ∈ before, e.location.le x.location = false) ∧ ∀ x ∈ after, e.location.le x.location = true := by
  obtain ⟨before, after, hcons, hes, hbefore⟩ := List.mergeSort_cons
    (fun a b c : ParseError => Location.le_trans a.location b.location c.location)
    (fun a b => Location.le_total a.location b.location) e es
  refine ⟨before, after, hcons, hes, fun x hx => by simpa using hbefore x hx, fun x hx => ?_⟩
  have hpairs := pairwise_inOrder (e :: es)
  unfold inOrder at hpairs
  rw [hcons] at hpairs
  exact (List.pairwise_cons.1 (List.pairwise_append.1 hpairs).2.1).1 x hx

/-- Two lists with one cut between what satisfies `p` and what does not. -/
theorem append_inj_of_filter {p : ParseError → Bool} {as bs as' bs' : List ParseError}
    (h : as ++ bs = as' ++ bs') (has : ∀ x ∈ as, p x = false) (hbs : ∀ x ∈ bs, p x = true)
    (has' : ∀ x ∈ as', p x = false) (hbs' : ∀ x ∈ bs', p x = true) : as = as' ∧ bs = bs' := by
  have hfilter : ∀ {cs ds : List ParseError}, (∀ x ∈ cs, p x = false) → (∀ x ∈ ds, p x = true) →
      (cs ++ ds).filter p = ds := by
    intro cs ds hcs hds
    rw [List.filter_append, List.filter_eq_nil_iff.2 (by simpa using hcs), List.filter_eq_self.2 hds,
      List.nil_append]
  have hright : bs = bs' := by rw [← hfilter has hbs, h, hfilter has' hbs']
  subst hright
  exact ⟨List.append_cancel_right h, rfl⟩

theorem filter_inOrder (p : ParseError → Bool) (es : List ParseError) :
    (inOrder es).filter p = inOrder (es.filter p) := by
  induction es with
  | nil => simp [inOrder]
  | cons e es ih =>
    obtain ⟨before, after, hcons, hes, hbefore, hafter⟩ := exists_inOrder_cons e es
    rw [hes, List.filter_append] at ih
    rw [hcons, List.filter_append]
    -- In the filtered list the error goes before the same ones, as the cut is by location.
    by_cases he : p e = true
    · obtain ⟨before', after', hcons', hes', hbefore', hafter'⟩ := exists_inOrder_cons e (es.filter p)
      obtain ⟨hleft, hright⟩ := append_inj_of_filter (ih.trans hes')
        (fun x hx => hbefore x (List.mem_filter.1 hx).1) (fun x hx => hafter x (List.mem_filter.1 hx).1)
        hbefore' hafter'
      rw [List.filter_cons_of_pos he, List.filter_cons_of_pos he, hcons', hleft, hright]
    · rw [List.filter_cons_of_neg he, List.filter_cons_of_neg he, ih]

theorem inOrder_map {f : Location → Location} (hf : ∀ a b, (f a).le (f b) = a.le b)
    (es : List ParseError) : inOrder (es.map (relocate f)) = (inOrder es).map (relocate f) := by
  unfold inOrder
  rw [List.map_mergeSort]
  intro a _ b _
  exact (hf a.location b.location).symm

/-! ## The errors behind a place -/

def behind (n : Nat) (es : List ParseError) : List ParseError :=
  es.filter fun e => n ≤ e.location.offset

theorem behind_eq_nil {n : Nat} {es : List ParseError} (h : ∀ e ∈ es, e.location.offset < n) :
    behind n es = [] :=
  List.filter_eq_nil_iff.2 fun e he => by simpa using h e he

theorem behind_relocate (as : List Char) (es : List ParseError) :
    behind (Text.byteLength as) (es.map (relocate (Location.behind as))) =
      es.map (relocate (Location.behind as)) := by
  apply List.filter_eq_self.2
  intro e he
  obtain ⟨e, -, rfl⟩ := List.mem_map.1 he
  simp [relocate, Location.behind, Location.moved]

theorem behind_append (n : Nat) (es fs : List ParseError) :
    behind n (es ++ fs) = behind n es ++ behind n fs :=
  List.filter_append es fs

theorem behind_inOrder (n : Nat) (es : List ParseError) :
    behind n (inOrder es) = inOrder (behind n es) :=
  filter_inOrder _ es

end ParseError

end Gherkin
