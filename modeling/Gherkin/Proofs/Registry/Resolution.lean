import Mathlib.Data.Prod.Lex
import Mathlib.Order.OrderDual
import Gherkin.Session
import Gherkin.Proofs.Registry.Building

/-!
# The winner of a look-up

Of the definitions that match a text the first of the most specific ones wins.  A look-up goes through
the definitions once and keeps the best so far and how many are as specific; what it keeps is right for
the definitions it has seen, so at the end it is right for all of them.
-/

namespace Gherkin

/-! ## The order of specificities -/

/-- More literal characters, or else fewer slots, or else more typed slots. -/
def Specificity.rank (s : Specificity) : ℕ ×ₗ ℕᵒᵈ ×ₗ ℕ :=
  toLex (s.literals, toLex (OrderDual.toDual s.slots, s.typed))

theorem Specificity.rank_inj {a b : Specificity} : a.rank = b.rank ↔ a = b := by
  constructor
  · intro h
    obtain ⟨la, sa, ta⟩ := a
    obtain ⟨lb, sb, tb⟩ := b
    simp only [rank, EmbeddingLike.apply_eq_iff_eq, Prod.mk.injEq] at h
    obtain ⟨rfl, rfl, rfl⟩ := h
    rfl
  · exact congrArg rank

theorem Specificity.exceeds_iff {a b : Specificity} : a.exceeds b ↔ b.rank < a.rank := by
  unfold exceeds rank
  rw [Prod.Lex.toLex_lt_toLex, Prod.Lex.toLex_lt_toLex, OrderDual.toDual_lt_toDual,
    OrderDual.toDual_inj]
  simp only [Bool.or_eq_true, Bool.and_eq_true, decide_eq_true_eq, beq_iff_eq]
  omega

variable {World : Type}

def Definition.rank (d : Definition World) : ℕ ×ₗ ℕᵒᵈ ×ₗ ℕ := d.pattern.specificity.rank

namespace Registry

/-! ## Winning -/

/-- Of `ds`, the definition `d` at `index` matches the text, no other that matches is more specific, and
those before it that match are less specific. -/
structure Wins (text : String) (ds : List (Definition World)) (index : Nat) (d : Definition World) :
    Prop where
  found : ds[index]? = some d
  accepts : d.pattern.accepts text
  greatest : ∀ e ∈ ds, e.pattern.accepts text → e.rank ≤ d.rank
  first : ∀ j < index, ∀ e, ds[j]? = some e → e.pattern.accepts text → e.rank < d.rank

def rivals (text : String) (ds : List (Definition World)) (d : Definition World) : Nat :=
  ds.countP fun e => e.pattern.accepts text && e.pattern.specificity = d.pattern.specificity

section
variable {text : String} {ds seen : List (Definition World)} {index : Nat} {d e : Definition World}

theorem Wins.mem (h : Wins text ds index d) : d ∈ ds := List.mem_of_getElem? h.found

theorem Wins.unique {j : Nat} (h : Wins text ds index d) (h' : Wins text ds j e) :
    index = j ∧ d = e := by
  have hindex : index = j := by
    rcases Nat.lt_trichotomy index j with hlt | heq | hlt
    · exact absurd (h'.first index hlt d h.found h.accepts) (h.greatest e h'.mem h'.accepts).not_gt
    · exact heq
    · exact absurd (h.first j hlt e h'.found h'.accepts) (h'.greatest d h.mem h.accepts).not_gt
  subst hindex
  exact ⟨rfl, Option.some.inj (h.found.symm.trans h'.found)⟩

/-- A definition that does not beat the winner changes nothing behind it. -/
theorem Wins.concat (h : Wins text seen index d) (he : e.pattern.accepts text → e.rank ≤ d.rank) :
    Wins text (seen ++ [e]) index d := by
  have hindex : index < seen.length := (List.getElem?_eq_some_iff.1 h.found).1
  refine ⟨?_, h.accepts, ?_, ?_⟩
  · rw [List.getElem?_append_left hindex]
    exact h.found
  · intro e' he'
    rcases List.mem_append.1 he' with he' | he'
    · exact h.greatest e' he'
    · rw [List.mem_singleton.1 he']
      exact he
  · intro j hj e' he'
    rw [List.getElem?_append_left (by omega)] at he'
    exact h.first j hj e' he'

/-- A definition that beats all before it wins. -/
theorem wins_concat_self (hd : d.pattern.accepts text)
    (hseen : ∀ e ∈ seen, e.pattern.accepts text → e.rank < d.rank) :
    Wins text (seen ++ [d]) seen.length d := by
  refine ⟨by simp, hd, ?_, ?_⟩
  · intro e he haccepts
    rcases List.mem_append.1 he with he | he
    · exact (hseen e he haccepts).le
    · rw [List.mem_singleton.1 he]
  · intro j hj e he
    rw [List.getElem?_append_left hj] at he
    exact hseen e (List.mem_of_getElem? he)

theorem rivals_concat : rivals text (seen ++ [e]) d = rivals text seen d +
    if e.pattern.accepts text && e.pattern.specificity = d.pattern.specificity then 1 else 0 := by
  unfold rivals
  rw [List.countP_append, List.countP_singleton]

/-- What is less specific is no rival. -/
theorem rivals_eq_zero (h : ∀ e ∈ seen, e.pattern.accepts text → e.rank < d.rank) :
    rivals text seen d = 0 := by
  apply List.countP_eq_zero.2
  intro e he hrival
  rw [Bool.and_eq_true, decide_eq_true_eq] at hrival
  exact (h e he hrival.1).ne (Specificity.rank_inj.2 hrival.2)

theorem rivals_concat_of_rank_ne (h : e.rank ≠ d.rank) :
    rivals text (seen ++ [e]) d = rivals text seen d := by
  have hspecificity : e.pattern.specificity ≠ d.pattern.specificity :=
    fun heq => h (Specificity.rank_inj.2 heq)
  rw [rivals_concat, if_neg (by simp [hspecificity]), Nat.add_zero]

end

/-! ## One pass -/

/-- What a look-up keeps of the definitions it has seen: nothing if none of them matches, or else the one
that wins among them, its captures and how many are as specific. -/
def Settles (text : String) (seen : List (Definition World)) : Option (Contest World) → Prop
  | none => ∀ d ∈ seen, ¬ d.pattern.accepts text
  | some c => Wins text seen c.index c.winner ∧ c.winner.pattern.captures? text = some c.captures ∧
      c.contenders = rivals text seen c.winner

section
variable {text : String} {seen : List (Definition World)} {best : Option (Contest World)}
  {d : Definition World}

theorem Settles.skip (h : Settles text seen best) (hd : ¬ d.pattern.accepts text) :
    Settles text (seen ++ [d]) best := by
  cases best with
  | none =>
    intro e he
    rcases List.mem_append.1 he with he | he
    · exact h e he
    · rw [List.mem_singleton.1 he]
      exact hd
  | some c =>
    obtain ⟨hwins, hcaptures, hcount⟩ := h
    refine ⟨hwins.concat fun haccepts => absurd haccepts hd, hcaptures, ?_⟩
    rw [hcount, rivals_concat, if_neg (by simp [hd]), Nat.add_zero]

theorem Settles.contend (h : Settles text seen best) {captures : List String}
    (hd : d.pattern.captures? text = some captures) :
    Settles text (seen ++ [d]) (some (contend best d seen.length captures)) := by
  have haccepts : d.pattern.accepts text := by
    unfold Pattern.accepts
    rw [hd]
    rfl
  -- The newcomer starts a count of its own where it beats everything before it.
  have hnew : (∀ e ∈ seen, e.pattern.accepts text → e.rank < d.rank) →
      Settles text (seen ++ [d]) (some ⟨d, seen.length, captures, 1⟩) := by
    intro hseen
    refine ⟨wins_concat_self haccepts hseen, hd, ?_⟩
    rw [rivals_concat, rivals_eq_zero hseen, if_pos (by simp [haccepts])]
  cases best with
  | none => exact hnew fun e he hmatch => absurd hmatch (h e he)
  | some c =>
    obtain ⟨hwins, hcaptures, hcount⟩ := h
    unfold Registry.contend
    dsimp only
    by_cases hmore : d.pattern.specificity.exceeds c.winner.pattern.specificity
    · rw [if_pos hmore]
      have hlt : c.winner.rank < d.rank := Specificity.exceeds_iff.1 hmore
      exact hnew fun e he hmatch => (hwins.greatest e he hmatch).trans_lt hlt
    · rw [if_neg hmore]
      have hle : d.rank ≤ c.winner.rank := not_lt.1 fun hlt => hmore (Specificity.exceeds_iff.2 hlt)
      by_cases hless : c.winner.pattern.specificity.exceeds d.pattern.specificity
      · rw [if_pos hless]
        have hlt : d.rank < c.winner.rank := Specificity.exceeds_iff.1 hless
        exact ⟨hwins.concat fun _ => hle, hcaptures, by rw [hcount, rivals_concat_of_rank_ne hlt.ne]⟩
      · rw [if_neg hless]
        have hge : c.winner.rank ≤ d.rank := not_lt.1 fun hlt => hless (Specificity.exceeds_iff.2 hlt)
        have hsame : d.pattern.specificity = c.winner.pattern.specificity :=
          Specificity.rank_inj.1 (le_antisymm hle hge)
        refine ⟨hwins.concat fun _ => hle, hcaptures, ?_⟩
        show c.contenders + 1 = rivals text (seen ++ [d]) c.winner
        rw [hcount, rivals_concat, if_pos (by simp [haccepts, hsame])]

theorem Settles.contest (h : Settles text seen best) (ds : List (Definition World)) :
    Settles text (seen ++ ds) (contest text best seen.length ds) := by
  induction ds generalizing seen best with
  | nil =>
    rw [List.append_nil]
    exact h
  | cons d ds ih =>
    rw [Registry.contest, List.append_cons]
    cases hcaptures : d.pattern.captures? text with
    | none =>
      have hrest := ih (h.skip (d := d) (by simp [Pattern.accepts, hcaptures]))
      rwa [List.length_append] at hrest
    | some captures =>
      have hrest := ih (h.contend hcaptures)
      rwa [List.length_append] at hrest

end

theorem settles_resolve (r : Registry World) (text : String) :
    Settles text r.definitions (r.resolve text) := by
  have hstart : Settles text ([] : List (Definition World)) none := by simp [Settles]
  exact hstart.contest r.definitions

/-- What a look-up settles on wins. -/
theorem wins_of_resolve {r : Registry World} {text : String} {c : Contest World}
    (h : r.resolve text = some c) : Wins text r.definitions c.index c.winner ∧
      c.winner.pattern.captures? text = some c.captures ∧
        c.contenders = rivals text r.definitions c.winner := by
  have hsettles := r.settles_resolve text
  rwa [h] at hsettles

theorem resolve_of_wins {r : Registry World} {text : String} {index : Nat} {d : Definition World}
    (h : Wins text r.definitions index d) : ∃ captures, d.pattern.captures? text = some captures ∧
      r.resolve text = some ⟨d, index, captures, rivals text r.definitions d⟩ := by
  have hsettles := r.settles_resolve text
  cases hresolve : r.resolve text with
  | none =>
    rw [hresolve] at hsettles
    exact absurd h.accepts (hsettles d h.mem)
  | some c =>
    obtain ⟨hwins, hcaptures, hcount⟩ := wins_of_resolve hresolve
    obtain ⟨winner, i, captures, contenders⟩ := c
    obtain ⟨rfl, rfl⟩ := hwins.unique h
    exact ⟨captures, hcaptures, by rw [← show contenders = _ from hcount]⟩

/-- Something wins where anything matches. -/
theorem exists_wins {r : Registry World} {text : String} (h : ∃ d ∈ r.definitions, d.pattern.accepts text) :
    ∃ index d, Wins text r.definitions index d := by
  obtain ⟨d, hd, haccepts⟩ := h
  have hsettles := r.settles_resolve text
  cases hresolve : r.resolve text with
  | none =>
    rw [hresolve] at hsettles
    exact absurd haccepts (hsettles d hd)
  | some c => exact ⟨c.index, c.winner, (wins_of_resolve hresolve).1⟩

theorem find_of_wins {r : Registry World} {text : String} {index : Nat} {d : Definition World}
    (h : Wins text r.definitions index d) : ∃ captures, d.pattern.captures? text = some captures ∧
      r.find text = ((Slot.values 0 (d.pattern.slots.zip captures)).map (fun values => some ⟨d, values⟩),
        r.markUsed index) := by
  obtain ⟨captures, hcaptures, hresolve⟩ := resolve_of_wins h
  refine ⟨captures, hcaptures, ?_⟩
  unfold find
  rw [hresolve]

theorem find_of_not_accepts {r : Registry World} {text : String}
    (h : ∀ d ∈ r.definitions, ¬ d.pattern.accepts text) : r.resolve text = none ∧ r.find text = (.ok none, r) := by
  have hresolve : r.resolve text = none := by
    unfold resolve
    rw [contest_eq_none_iff]
    exact ⟨rfl, fun d hd => by simpa [Pattern.accepts] using h d hd⟩
  refine ⟨hresolve, ?_⟩
  unfold find
  rw [hresolve]

theorem find_eq_none_iff_not_accepts {r : Registry World} {text : String} :
    (r.find text).1 = .ok none ↔ ∀ d ∈ r.definitions, ¬ d.pattern.accepts text := by
  rw [find_eq_none_iff]
  simp [Pattern.accepts]

/-! ## Orders of registration -/

variable {refusal? : Refusal}

/-- The registry after registrations, those that fail left out. -/
def registerAll (refusal? : Refusal) (r : Registry World) (xs : List (Registration World)) :
    Registry World :=
  xs.foldl (fun r x => match r.register refusal? x with
    | .ok r' => r'
    | .error _ => r) r

/-- A registry holds the patterns that are registered, whatever the order. -/
theorem mem_patterns_registerAll {r : Registry World} (hr : r.Built refusal?)
    (xs : List (Registration World)) (p : Pattern) :
    (∃ d ∈ (r.registerAll refusal? xs).definitions, d.pattern = p) ↔
      (∃ d ∈ r.definitions, d.pattern = p) ∨ ∃ x ∈ xs, Pattern.parse refusal? x.source = .ok p := by
  induction xs generalizing r with
  | nil => simp [registerAll]
  | cons x xs ih =>
    have hstep : (r.registerAll refusal? (x :: xs)) = (match r.register refusal? x with
        | .ok r' => r'
        | .error _ => r).registerAll refusal? xs := rfl
    rw [hstep]
    cases hregister : r.register refusal? x with
    | error e =>
      rw [ih hr]
      -- A source that is there already stands for the pattern that it compiles to.
      have hthere : Pattern.parse refusal? x.source = .ok p → ∃ d ∈ r.definitions, d.pattern = p := by
        intro hparse
        by_cases hsource : x.source ∈ r.patterns
        · obtain ⟨d, hd, hd'⟩ := List.mem_map.1 hsource
          have hsame := hr.parse_eq d hd
          rw [hd', hparse] at hsame
          exact ⟨d, hd, (Except.ok.inj hsame).symm⟩
        · rw [register_eq_ok (hr.indexed.lookup_eq_none_iff.2 hsource) hparse] at hregister
          cases hregister
      rw [List.exists_mem_cons_iff, ← or_assoc, or_iff_left_of_imp hthere]
    | ok r' =>
      obtain ⟨q, -, hparse, rfl⟩ := eq_push_of_register hregister
      rw [ih (hr.register hregister), List.exists_mem_cons_iff, hparse]
      simp only [push, Registration.definition, List.mem_append, List.mem_singleton, or_and_right, exists_or, exists_eq_left,
        Except.ok.injEq, or_assoc]

theorem registerAll_perm {xs ys : List (Registration World)} (h : xs.Perm ys) (p : Pattern) :
    (∃ d ∈ (registerAll refusal? {} xs).definitions, d.pattern = p) ↔
      ∃ d ∈ (registerAll refusal? {} ys).definitions, d.pattern = p := by
  rw [mem_patterns_registerAll .empty, mem_patterns_registerAll .empty]
  simp only [h.mem_iff]

/-- Of two winners neither is more specific if each has its pattern in both registries. -/
theorem Wins.rank_le {text : String} {ds es : List (Definition World)} {i j : Nat}
    {d e : Definition World} (h : Wins text ds i d) (h' : Wins text es j e)
    (hpattern : ∃ e' ∈ es, e'.pattern = d.pattern) : d.rank ≤ e.rank := by
  obtain ⟨e', he', hsame⟩ := hpattern
  have hle := h'.greatest e' he' (by rw [hsame]; exact h.accepts)
  unfold Definition.rank at hle ⊢
  rwa [hsame] at hle

/-! ## Look-ups -/

/-- A look-up finds nothing exactly where no definition matches.  Or else the first of the most specific
definitions that match wins, and a warning counts those that are as specific if there is more than one.
The order in which definitions are registered has no say in how specific the winner is. -/
theorem find_picks_best (s : Session World) (text : String) :
    ((s.find text).1 = .ok none ↔ ∀ d ∈ s.registry.definitions, ¬ d.pattern.accepts text) ∧
    ((s.find text).1 = .ok none ↔ s.registry.accepts text = false) ∧
    ((s.find text).1 = .ok none →
      (s.find text).2 = s.log [⟨.trace, "no step definition matches", [("text", text)]⟩]) ∧
    ((s.find text).1 ≠ .ok none → ∃ index d captures, Wins text s.registry.definitions index d ∧
      d.pattern.captures? text = some captures ∧
      (s.find text).1 =
        (Slot.values 0 (d.pattern.slots.zip captures)).map (fun values => some ⟨d, values⟩) ∧
      (s.find text).2 = { s with registry := s.registry.markUsed index }.log
        (if 2 ≤ rivals text s.registry.definitions d then
          [⟨.warn, "ambiguous step; using the earliest equally specific definition",
            [("text", text), ("pattern", d.pattern.source),
              ("contenders", toString (rivals text s.registry.definitions d))]⟩]
        else [])) ∧
    ∀ (refusal? : Refusal) (xs ys : List (Registration World)), xs.Perm ys →
      (registerAll refusal? {} xs).accepts text = (registerAll refusal? {} ys).accepts text ∧
      ∀ i j d e, Wins text (registerAll refusal? {} xs).definitions i d →
        Wins text (registerAll refusal? {} ys).definitions j e → d.rank = e.rank := by
  have hnone : (s.find text).1 = .ok none ↔ ∀ d ∈ s.registry.definitions, ¬ d.pattern.accepts text :=
    find_eq_none_iff_not_accepts
  refine ⟨hnone, ?_, ?_, ?_, ?_⟩
  · rw [hnone]
    unfold accepts
    rw [List.any_eq_false]
  · intro h
    obtain ⟨hresolve, hfind⟩ := find_of_not_accepts (hnone.1 h)
    unfold Session.find
    rw [hresolve, hfind]
    rfl
  · intro h
    -- A definition matches, or else nothing would have been found.
    have hmatch : ∃ d ∈ s.registry.definitions, d.pattern.accepts text := by
      by_contra hno
      exact h (hnone.2 fun d hd haccepts => hno ⟨d, hd, haccepts⟩)
    obtain ⟨index, d, hwins⟩ := exists_wins hmatch
    obtain ⟨captures, hcaptures, hresolve⟩ := resolve_of_wins hwins
    obtain ⟨captures', hcaptures', hfind⟩ := find_of_wins hwins
    obtain rfl := Option.some.inj (hcaptures.symm.trans hcaptures')
    refine ⟨index, d, captures, hwins, hcaptures, ?_, ?_⟩
    · show (s.registry.find text).1 = _
      rw [hfind]
    · unfold Session.find
      rw [hresolve, hfind]
      rfl
  · intro refusal? xs ys hperm
    -- Registered in any order, the same patterns are there; only these decide what matches and how specific it is.
    have hsame : ∀ p, (∃ d ∈ (registerAll refusal? {} xs).definitions, d.pattern = p) ↔
        ∃ d ∈ (registerAll refusal? {} ys).definitions, d.pattern = p := registerAll_perm hperm
    have haccepts : ∀ r : Registry World, r.accepts text = true ↔
        ∃ p, (∃ d ∈ r.definitions, d.pattern = p) ∧ p.accepts text := by
      intro r
      unfold accepts
      rw [List.any_eq_true]
      constructor
      · rintro ⟨d, hd, h⟩
        exact ⟨d.pattern, ⟨d, hd, rfl⟩, h⟩
      · rintro ⟨p, ⟨d, hd, rfl⟩, h⟩
        exact ⟨d, hd, h⟩
    refine ⟨?_, fun i j d e hd he => ?_⟩
    · rw [Bool.eq_iff_iff, haccepts, haccepts]
      simp only [hsame]
    · exact le_antisymm (hd.rank_le he ((hsame _).1 ⟨d, hd.mem, rfl⟩))
        (he.rank_le hd ((hsame _).2 ⟨e, he.mem, rfl⟩))

set_option maxRecDepth 4000 in
/-- Two patterns that are equally specific come after a less specific one that matches too. -/
theorem find_picks_best_of_tied_patterns : ∃ (s : Session Unit) (d : Definition Unit),
    s.registry.patterns = ["\x7b\x7d b", "a \x7bword\x7d b", "a \x7bint\x7d b"] ∧ s.events = [] ∧
      (s.find "a 5 b").1 ≠ .ok none ∧ Wins "a 5 b" s.registry.definitions 1 d ∧
      (s.find "a 5 b").1 = .ok (some ⟨d, [.string "5"]⟩) ∧
      (s.find "a 5 b").2.events = [⟨.warn, "ambiguous step; using the earliest equally specific definition",
        [("text", "a 5 b"), ("pattern", "a \x7bword\x7d b"), ("contenders", "2")]⟩] := by
  let handler : Handler Unit := fun _ s => (.ok (), s)
  let any : Definition Unit := ⟨.ofParts "\x7b\x7d b" [.slot .any, .literal ' ', .literal 'b'], none,
    handler, ⟨"steps", 1⟩, false⟩
  let word : Definition Unit := ⟨.ofParts "a \x7bword\x7d b"
    [.literal 'a', .literal ' ', .slot .word, .literal ' ', .literal 'b'], none, handler, ⟨"steps", 2⟩, false⟩
  let int : Definition Unit := ⟨.ofParts "a \x7bint\x7d b"
    [.literal 'a', .literal ' ', .slot .int, .literal ' ', .literal 'b'], none, handler, ⟨"steps", 3⟩, false⟩
  let s : Session Unit := ⟨{ definitions := [any, word, int] }, ⟨.empty, ()⟩, [], []⟩
  have hresolve : s.registry.resolve "a 5 b" = some ⟨word, 1, ["5"], 2⟩ := by cbv
  have hwins : Wins "a 5 b" s.registry.definitions 1 word := (wins_of_resolve hresolve).1
  have hfound : (s.find "a 5 b").1 ≠ .ok none := by
    rw [Ne, (find_picks_best s "a 5 b").1]
    exact fun hnot => hnot word hwins.mem hwins.accepts
  obtain ⟨index, d, captures, hbest, hcaptures, hfind, hafter⟩ := (find_picks_best s "a 5 b").2.2.2.1 hfound
  obtain ⟨rfl, rfl⟩ := hbest.unique hwins
  have hfive : word.pattern.captures? "a 5 b" = some ["5"] := by cbv
  have hrivals : rivals "a 5 b" s.registry.definitions word = 2 := by cbv
  obtain rfl := Option.some.inj (hcaptures.symm.trans hfive)
  rw [hrivals] at hafter
  exact ⟨s, word, rfl, rfl, hfound, hwins, hfind, by rw [hafter]; rfl⟩

end Registry

end Gherkin
