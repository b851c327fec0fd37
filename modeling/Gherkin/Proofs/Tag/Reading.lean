import Gherkin.Proofs.Tag.Automaton
import Gherkin.Proofs.Tag.Grammar

/-!
# Expressions are read along their derivations

What a state of the expression reader stands for is a split of the symbols read so far: for each open
parenthesis, and for the innermost part, the alternatives before the last `or`, the conjuncts before the
last `and`, and the negations after it.  One step keeps the split, and so does a run.  The other way
round, a run over the symbols of a derivation ends in a state that holds a tree with its value.
-/

namespace Gherkin.Tag.Reader

/-! ## What a state stands for -/

/-- The symbols before an operator, which are an expression of the level with the value of the tree. -/
def Left (l : Level) (op : Operator) : Option Tree → List Symbol → Prop
  | none, ss => ss = []
  | some t, ss => ∃ ls, ss = ls ++ [.operator op] ∧ Derives l ls fun tags => t.eval tags

/-- The symbols read since the frame was opened, with an operand still to come. -/
def Frame.Stands (f : Frame) (ss : List Symbol) : Prop :=
  ∃ alternatives conjuncts,
    ss = alternatives ++ (conjuncts ++ List.replicate f.negations (.operator .not)) ∧
      Left .or .or f.alternatives alternatives ∧ Left .and .and f.conjuncts conjuncts

inductive Enclosed : List (Nat × Frame) → List Symbol → Prop
  | nil : Enclosed [] []
  | cons {offset : Nat} {f : Frame} {enclosing : List (Nat × Frame)} {outer ss : List Symbol} :
      Enclosed enclosing outer → f.Stands ss →
      Enclosed ((offset, f) :: enclosing) (outer ++ (ss ++ [.opening]))

def Inside (f : Frame) : Awaited → List Symbol → Prop
  | .operand _, ss => f.Stands ss
  | .operator t, ss => ∃ alternatives conjuncts, ss = alternatives ++ conjuncts ∧
      Left .or .or f.alternatives alternatives ∧ Derives .and conjuncts fun tags => t.eval tags

def State.Stands (st : State) (ss : List Symbol) : Prop :=
  ∃ outer inner, ss = outer ++ inner ∧ Enclosed st.enclosing outer ∧ Inside st.frame st.awaited inner

theorem stands_start : ({} : State).Stands [] :=
  ⟨[], [], rfl, .nil, [], [], rfl, rfl, rfl⟩

theorem Frame.stands_empty : ({} : Frame).Stands [] := ⟨[], [], rfl, rfl, rfl⟩

/-! ## One step -/

theorem derives_negate {ss : List Symbol} {t : Tree} (h : Derives .not ss fun tags => t.eval tags)
    (n : Nat) : Derives .not (List.replicate n (.operator .not) ++ ss) fun tags => (negate n t).eval tags := by
  induction n with
  | zero => exact h
  | succ n ih => exact .not ih

/-- An operand completes the conjuncts. -/
theorem inside_conjoin {f : Frame} {ss operand : List Symbol} {t : Tree} (hf : f.Stands ss)
    (h : Derives .not operand fun tags => t.eval tags) :
    Inside f (.operator (f.conjoin t)) (ss ++ operand) := by
  obtain ⟨alternatives, conjuncts, rfl, halternatives, hconjuncts⟩ := hf
  have hnegated := derives_negate h f.negations
  refine ⟨alternatives, conjuncts ++ (List.replicate f.negations (.operator .not) ++ operand),
    by simp, halternatives, ?_⟩
  cases hleft : f.conjuncts with
  | none =>
    rw [hleft] at hconjuncts
    obtain rfl : conjuncts = [] := hconjuncts
    simpa [Frame.conjoin, hleft] using hnegated.operand
  | some l =>
    rw [hleft] at hconjuncts
    obtain ⟨ls, rfl, hl⟩ := hconjuncts
    simpa [Frame.conjoin, hleft, Tree.eval] using hl.and hnegated

/-- The conjuncts complete the alternatives. -/
theorem derives_alternate {f : Frame} {ss : List Symbol} {t : Tree}
    (h : Inside f (.operator t) ss) : Derives .or ss fun tags => (f.alternate t).eval tags := by
  obtain ⟨alternatives, conjuncts, rfl, halternatives, hconjuncts⟩ := h
  cases hleft : f.alternatives with
  | none =>
    rw [hleft] at halternatives
    obtain rfl : alternatives = [] := halternatives
    simpa [Frame.alternate, hleft] using hconjuncts.conjuncts
  | some l =>
    rw [hleft] at halternatives
    obtain ⟨ls, rfl, hl⟩ := halternatives
    simpa [Frame.alternate, hleft, Tree.eval] using hl.or hconjuncts

theorem derives_tag (name : String) :
    Derives .not [.tag name] fun tags => (Tree.tag name).eval tags := by
  have heval : (fun tags => (Tree.tag name).eval tags) = fun tags => decide (name ∈ tags) := by
    funext tags
    exact List.contains_eq_mem name tags
  rw [heval]
  exact .tag name

/-- A step appends the symbol that it reads. -/
theorem stands_step {st st' : State} {ss : List Symbol} {offset : Nat} {s : Symbol}
    (h : st.Stands ss) (hstep : st.step (offset, s) = .ok st') : st'.Stands (ss ++ [s]) := by
  obtain ⟨frame, awaited, enclosing⟩ := st
  obtain ⟨outer, inner, rfl, houter, hinner⟩ := h
  -- What the state waits for and what it gets: a step that fails has no case, any other grows one of the lists.
  cases awaited with
  | operand after =>
    cases s with
    | tag name =>
      obtain rfl := Except.ok.inj hstep
      exact ⟨outer, inner ++ [.tag name], by simp, houter, inside_conjoin hinner (derives_tag name)⟩
    | opening =>
      obtain rfl := Except.ok.inj hstep
      exact ⟨outer ++ (inner ++ [.opening]), [], by simp, .cons houter hinner, Frame.stands_empty⟩
    | closing => cases after <;> simp [State.step] at hstep
    | operator op =>
      cases op with
      | and => cases after <;> simp [State.step] at hstep
      | or => cases after <;> simp [State.step] at hstep
      | not =>
        obtain rfl := Except.ok.inj hstep
        obtain ⟨alternatives, conjuncts, rfl, halternatives, hconjuncts⟩ := hinner
        refine ⟨outer, alternatives ++
          (conjuncts ++ List.replicate (frame.negations + 1) (.operator .not)), ?_, houter,
          alternatives, conjuncts, rfl, halternatives, hconjuncts⟩
        rw [List.replicate_succ']
        simp
  | operator t =>
    cases s with
    | tag name => cases enclosing <;> simp [State.step] at hstep
    | opening => cases enclosing <;> simp [State.step] at hstep
    | closing =>
      cases houter with
      | nil => simp [State.step] at hstep
      -- The inside is an expression by now, and in its parentheses it is an operand of the frame outside.
      | @cons opened f enclosing outer before houter hbefore =>
        obtain rfl := Except.ok.inj hstep
        have hoperand := (derives_alternate hinner).parentheses
        exact ⟨outer, before ++ (.opening :: (inner ++ [.closing])), by simp, houter,
          inside_conjoin hbefore hoperand⟩
    | operator op =>
      cases op with
      | not => cases enclosing <;> simp [State.step] at hstep
      | and =>
        obtain rfl := Except.ok.inj hstep
        obtain ⟨alternatives, conjuncts, rfl, halternatives, hconjuncts⟩ := hinner
        exact ⟨outer, alternatives ++ (conjuncts ++ [.operator .and]), by simp, houter, alternatives,
          conjuncts ++ [.operator .and], by simp, halternatives, conjuncts, rfl, hconjuncts⟩
      | or =>
        obtain rfl := Except.ok.inj hstep
        exact ⟨outer, inner ++ [.operator .or], by simp, houter, inner ++ [.operator .or], [],
          by simp, ⟨inner, rfl, derives_alternate hinner⟩, rfl⟩

/-! ## A run -/

theorem stands_run {xs : List (Nat × Symbol)} {st st' : State} {ss : List Symbol} (h : st.Stands ss)
    (hrun : st.run xs = .ok st') : st'.Stands (ss ++ xs.map Prod.snd) := by
  induction xs generalizing st ss with
  | nil =>
    obtain rfl := Except.ok.inj hrun
    simpa using h
  | cons x xs ih =>
    rw [State.run] at hrun
    cases hstep : st.step x with
    | error e => simp [hstep] at hrun
    | ok next =>
      rw [hstep] at hrun
      simpa using ih (stands_step h hstep) hrun

/-- An expression that ends here is derived, with the value of its tree. -/
theorem derives_of_finish {st : State} {ss : List Symbol} {stop : Nat} {t : Tree} (h : st.Stands ss)
    (hfinish : st.finish stop = .ok t) : Derives .or ss fun tags => t.eval tags := by
  obtain ⟨frame, awaited, enclosing⟩ := st
  obtain ⟨outer, inner, rfl, houter, hinner⟩ := h
  cases awaited with
  | operand after => cases after <;> simp [State.finish] at hfinish
  | operator conjuncts =>
    cases houter with
    | nil =>
      obtain rfl := Except.ok.inj hfinish
      exact derives_alternate hinner
    | cons _ _ => simp [State.finish] at hfinish

/-! ## Derivations are read -/

theorem run_append {xs ys : List (Nat × Symbol)} {st st' : State} (h : st.run xs = .ok st') :
    st.run (xs ++ ys) = st'.run ys := by
  induction xs generalizing st with
  | nil =>
    obtain rfl := Except.ok.inj h
    rfl
  | cons x xs ih =>
    rw [State.run] at h
    rw [List.cons_append, State.run]
    cases hstep : st.step x with
    | error e => simp [hstep] at h
    | ok next =>
      rw [hstep] at h
      exact ih h

/-- Where an expression of a level may begin: it has its conjuncts and its alternatives to itself. -/
def Begins : Level → Frame → Prop
  | .not, _ => True
  | .and, f => f.conjuncts = none ∧ f.negations = 0
  | .or, f => f = {}

def Ends : Level → Frame → Tree → Frame → Tree → Prop
  | .not, f, t, f', conjuncts => conjuncts = f.conjoin t ∧ f'.alternatives = f.alternatives
  | .and, f, t, f', conjuncts => conjuncts = t ∧ f'.alternatives = f.alternatives
  | .or, _, t, f', conjuncts => f'.alternate conjuncts = t

/-- The symbols of a derivation are read without an error, up to a tree with its value. -/
theorem exists_run_of_derives {l : Level} {ss : List Symbol} {v : List String → Bool}
    (h : Derives l ss v) {xs : List (Nat × Symbol)} (hxs : xs.map Prod.snd = ss) {f : Frame}
    (hf : Begins l f) (after : Option Operator) (enclosing : List (Nat × Frame)) :
    ∃ t f' conjuncts,
      State.run ⟨f, .operand after, enclosing⟩ xs = .ok ⟨f', .operator conjuncts, enclosing⟩ ∧
        (∀ tags, t.eval tags = v tags) ∧ Ends l f t f' conjuncts := by
  induction h generalizing xs f after enclosing with
  | tag name =>
    obtain ⟨⟨offset, s⟩, rfl, rfl⟩ := List.map_eq_singleton_iff.1 hxs
    exact ⟨.tag name, f, _, rfl, fun tags => List.contains_eq_mem name tags, rfl, rfl⟩
  | @parentheses ss v _ ih =>
    obtain ⟨⟨offset, s⟩, tail, rfl, rfl, htail⟩ := List.map_eq_cons_iff.1 hxs
    obtain ⟨xs, last, rfl, hinside, hlast⟩ := List.map_eq_append_iff.1 htail
    obtain ⟨⟨stop, s⟩, rfl, rfl⟩ := List.map_eq_singleton_iff.1 hlast
    -- The inside is an expression of its own, read in a fresh frame.
    obtain ⟨t, f', conjuncts, hrun, heval, hends⟩ := ih hinside rfl none ((offset, f) :: enclosing)
    refine ⟨t, f, f.conjoin t, ?_, heval, rfl, rfl⟩
    show State.run ⟨{}, .operand none, (offset, f) :: enclosing⟩ (xs ++ [(stop, .closing)]) = _
    rw [run_append hrun]
    rw [← hends]
    rfl
  | @not ss v _ ih =>
    obtain ⟨⟨offset, s⟩, xs, rfl, rfl, hoperand⟩ := List.map_eq_cons_iff.1 hxs
    obtain ⟨t, f', conjuncts, hrun, heval, rfl, halternatives⟩ :=
      ih hoperand (f := { f with negations := f.negations + 1 }) trivial (some .not) enclosing
    refine ⟨.not t, f', _, hrun, fun tags => by rw [Tree.eval, heval], ?_, halternatives⟩
    rw [Frame.conjoin, Frame.conjoin, negate_not]
  | operand _ ih =>
    obtain ⟨t, f', conjuncts, hrun, heval, rfl, halternatives⟩ := ih hxs trivial after enclosing
    obtain ⟨hconjuncts, hnegations⟩ := hf
    refine ⟨t, f', _, hrun, heval, ?_, halternatives⟩
    rw [Frame.conjoin, hconjuncts, hnegations]
    rfl
  | @and ls rs v w _ _ ihl ihr =>
    obtain ⟨xs, tail, rfl, hleft, htail⟩ := List.map_eq_append_iff.1 hxs
    obtain ⟨⟨offset, s⟩, ys, rfl, rfl, hright⟩ := List.map_eq_cons_iff.1 htail
    obtain ⟨_, f', l, hrunl, hl, rfl, halternatives⟩ := ihl hleft hf after enclosing
    obtain ⟨r, f'', _, hrunr, hr, rfl, halternatives'⟩ :=
      ihr hright (f := { f' with conjuncts := some l, negations := 0 }) trivial (some .and) enclosing
    refine ⟨.and l r, f'', _, ?_, fun tags => by rw [Tree.eval, hl, hr], rfl,
      halternatives'.trans halternatives⟩
    rw [run_append hrunl]
    exact hrunr
  | conjuncts _ ih =>
    obtain rfl : f = {} := hf
    obtain ⟨t, f', _, hrun, heval, rfl, halternatives⟩ := ih hxs (f := {}) ⟨rfl, rfl⟩ after enclosing
    refine ⟨_, f', _, hrun, heval, ?_⟩
    show f'.alternate _ = _
    rw [Frame.alternate, halternatives]
  | @or ls rs v w _ _ ihl ihr =>
    obtain rfl : f = {} := hf
    obtain ⟨xs, tail, rfl, hleft, htail⟩ := List.map_eq_append_iff.1 hxs
    obtain ⟨⟨offset, s⟩, ys, rfl, rfl, hright⟩ := List.map_eq_cons_iff.1 htail
    obtain ⟨l, f', conjuncts, hrunl, hl, hends⟩ := ihl hleft rfl after enclosing
    obtain ⟨_, f'', r, hrunr, hr, rfl, halternatives⟩ :=
      ihr hright (f := { alternatives := some l }) ⟨rfl, rfl⟩ (some .or) enclosing
    refine ⟨.or l r, f'', r, ?_, fun tags => by rw [Tree.eval, hl, hr], ?_⟩
    · rw [run_append hrunl]
      rw [← hends] at hrunr
      exact hrunr
    · show f''.alternate _ = _
      rw [Frame.alternate, halternatives]

end Gherkin.Tag.Reader

namespace Gherkin.Tag

/-! ## Expressions -/

theorem Tree.parse_eq_ok {input : String} {t : Tree} (h : Tree.parse input = .ok t) :
    ∃ ss, Written input.toList ss ∧ Derives .or ss fun tags => t.eval tags := by
  rw [Tree.parse_eq] at h
  unfold Reader.State.feed at h
  cases hrun : ({} : Reader.State).run (symbols 0 input.toList).placed with
  | error e => simp [hrun] at h
  | ok st =>
    rw [hrun] at h
    cases hfault : (symbols 0 input.toList).fault with
    | some fault => simp [hfault] at h
    | none =>
      simp only [hfault] at h
      have hstands := Reader.stands_run Reader.stands_start hrun
      exact ⟨_, written_symbols hfault, Reader.derives_of_finish hstands h⟩

theorem Tree.exists_parse_eq_ok {input : String} {ss : List Symbol} {v : List String → Bool}
    (hwritten : Written input.toList ss) (h : Derives .or ss v) :
    ∃ t, Tree.parse input = .ok t ∧ ∀ tags, t.eval tags = v tags := by
  obtain ⟨hfault, hplaced⟩ := symbols_of_written hwritten 0
  obtain ⟨t, f, conjuncts, hrun, heval, hends⟩ :=
    Reader.exists_run_of_derives h hplaced (f := {}) rfl none []
  refine ⟨t, ?_, heval⟩
  rw [Tree.parse_eq]
  unfold Reader.State.feed
  rw [show ({} : Reader.State).run _ = _ from hrun, hfault]
  exact congrArg Except.ok hends

end Gherkin.Tag
