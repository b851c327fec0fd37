import Gherkin.Tag.Expression

/-!
# Reading tag expressions symbol by symbol

An expression is read one symbol at a time, and at every point the reader's state says what is still to be
completed: the operators that wait for an operand, and the parentheses that are open.  The parser makes the same
of a text: where a method of the parser goes on, the reader goes on from the state in which the method was called
to a state that holds the tree it returns.
-/

namespace Gherkin.Tag

namespace Reader

/-- The part of an expression before its last operand: the alternatives and the conjuncts read so far,
and the negations of the operand. -/
structure Frame where
  alternatives : Option Tree := none
  conjuncts : Option Tree := none
  negations : Nat := 0

def negate : Nat → Tree → Tree
  | 0, t => t
  | n + 1, t => .not (negate n t)

def Frame.conjoin (f : Frame) (operand : Tree) : Tree :=
  match f.conjuncts with
  | some l => .and l (negate f.negations operand)
  | none => negate f.negations operand

def Frame.alternate (f : Frame) (t : Tree) : Tree :=
  match f.alternatives with
  | some l => .or l t
  | none => t

inductive Awaited where
  /-- An operand, perhaps of an operator just read. -/
  | operand (after : Option Operator)
  /-- An operator or the end, after conjuncts with the given tree. -/
  | operator (conjuncts : Tree)

structure State where
  frame : Frame := {}
  awaited : Awaited := .operand none
  /-- The open parentheses, the innermost first: where each stands and the frame around it. -/
  enclosing : List (Nat × Frame) := []

def State.step (st : State) : Nat × Symbol → Except ExpressionError State
  | (offset, s) =>
    match st.awaited, s with
    | .operand _, .tag name => .ok { st with awaited := .operator (st.frame.conjoin (.tag name)) }
    | .operand _, .operator .not =>
      .ok { st with
        frame := { st.frame with negations := st.frame.negations + 1 }
        awaited := .operand (some .not) }
    | .operand _, .opening =>
      .ok { frame := {}, awaited := .operand none, enclosing := (offset, st.frame) :: st.enclosing }
    | .operand (some op), _ => .error ⟨offset, .missingOperandAfter op⟩
    | .operand none, s => .error ⟨offset, .missingOperandBefore s⟩
    | .operator t, .operator .and =>
      .ok { st with
        frame := { st.frame with conjuncts := some t, negations := 0 }
        awaited := .operand (some .and) }
    | .operator t, .operator .or =>
      .ok { st with
        frame := { alternatives := some (st.frame.alternate t) }
        awaited := .operand (some .or) }
    | .operator t, s =>
      match st.enclosing, s with
      | [], s => .error ⟨offset, .unexpectedSymbol s⟩
      | (_, outer) :: enclosing, .closing =>
        .ok { frame := outer, awaited := .operator (outer.conjoin (st.frame.alternate t)), enclosing }
      | (opened, _) :: _, _ => .error ⟨opened, .missingClosing⟩

def State.finish (st : State) (stop : Nat) : Except ExpressionError Tree :=
  match st.awaited, st.enclosing with
  | .operand (some op), _ => .error ⟨stop, .missingOperandAfter op⟩
  | .operand none, _ => .error ⟨stop, .missingOperand⟩
  | .operator _, (opened, _) :: _ => .error ⟨opened, .missingClosing⟩
  | .operator t, [] => .ok (st.frame.alternate t)

def State.run (st : State) : List (Nat × Symbol) → Except ExpressionError State
  | [] => .ok st
  | s :: ss =>
    match st.step s with
    | .ok st => st.run ss
    | .error e => .error e

def State.feed (st : State) (later : Symbols) : Except ExpressionError Tree :=
  match st.run later.placed with
  | .error e => .error e
  | .ok st =>
    match later.fault with
    | some fault => .error ⟨later.stop, fault⟩
    | none => st.finish later.stop

/-! ## What is in front of a parser -/

def State.accept (st : State) (p : ExpressionParser) : Except ExpressionError Tree :=
  match p.current with
  | none => st.finish p.offset
  | some s => st.step (p.offset, s) >>= fun st => st.feed p.later

theorem feed_eq (st : State) (later : Symbols) :
    st.feed later = ExpressionParser.next later >>= fun p => st.accept p := by
  unfold State.feed ExpressionParser.next
  cases hplaced : later.placed with
  | nil => cases later.fault <;> rfl
  | cons s placed =>
    obtain ⟨offset, s⟩ := s
    show _ = st.step (offset, s) >>= fun st => st.feed { later with placed }
    rw [State.run]
    cases st.step (offset, s) <;> rfl

section
variable {p : ExpressionParser} {n : Nat} {f : Frame} {enclosing : List (Nat × Frame)}

theorem accept_eq {st : State} {s : Symbol} (h : p.current = some s) :
    st.accept p = st.step (p.offset, s) >>= fun st => st.feed p.later := by
  unfold State.accept
  rw [h]

/-- Where a symbol is read without a fault, the reader goes on behind it as the parser does. -/
theorem accept_of_step {st : State} (st' : State) {s : Symbol} (h : p.current = some s)
    (hstep : st.step (p.offset, s) = .ok st') :
    st.accept p = p.advance h >>= fun behind => st'.accept behind.1 := by
  rw [accept_eq h, hstep]
  show st'.feed p.later = _
  rw [feed_eq]
  unfold ExpressionParser.advance
  split
  · rename_i hnext
    exact congrArg (fun found => found >>= fun behind => st'.accept behind) hnext
  · rename_i hnext
    exact congrArg (fun found => found >>= fun behind => st'.accept behind) hnext

def StartsOperand (p : ExpressionParser) : Prop :=
  (∃ name, p.current = some (.tag name)) ∨ p.current = some .opening ∨ p.current = some (.operator .not)

theorem ensureOperand_spec (op : Operator) (f : Frame) (enclosing : List (Nat × Frame)) :
    p.ensureOperand op = .ok () ∧ StartsOperand p ∨
      ∃ e, p.ensureOperand op = .error e ∧ State.accept ⟨f, .operand (some op), enclosing⟩ p = .error e := by
  unfold ExpressionParser.ensureOperand StartsOperand State.accept
  cases p.current with
  | none => exact .inr ⟨_, rfl, rfl⟩
  | some s =>
    cases s with
    | tag name => exact .inl ⟨rfl, .inl ⟨name, rfl⟩⟩
    | opening => exact .inl ⟨rfl, .inr (.inl rfl)⟩
    | closing => exact .inr ⟨_, rfl, rfl⟩
    | operator op' =>
      cases op' with
      | not => exact .inl ⟨rfl, .inr (.inr rfl)⟩
      | and => exact .inr ⟨_, rfl, rfl⟩
      | or => exact .inr ⟨_, rfl, rfl⟩

/-- Behind an operand the reader knows of the alternatives only the tree that they make with it, unless a conjunct
follows. -/
theorem accept_of_alternate {f g : Frame} {t u : Tree} (h : f.alternate t = g.alternate u)
    (hand : p.current ≠ some (.operator .and)) :
    State.accept ⟨f, .operator t, enclosing⟩ p = State.accept ⟨g, .operator u, enclosing⟩ p := by
  have hstep : ∀ s, p.current = some s → State.step ⟨f, .operator t, enclosing⟩ (p.offset, s) =
      State.step ⟨g, .operator u, enclosing⟩ (p.offset, s) := by
    intro s hs
    cases s with
    | operator op =>
      cases op with
      | and => exact absurd hs hand
      | or => simp [State.step, h]
      | not => cases enclosing <;> rfl
    | closing => cases enclosing <;> simp [State.step, h]
    | tag name => cases enclosing <;> rfl
    | opening => cases enclosing <;> rfl
  unfold State.accept
  cases hcurrent : p.current with
  | none => cases enclosing <;> simp [State.finish, h]
  | some s =>
    dsimp only
    rw [hstep s hcurrent]

/-- Behind an operand the reader no longer knows the negations and conjuncts before it. -/
theorem accept_alternatives (f : Frame) (t : Tree) : State.accept ⟨f, .operator t, enclosing⟩ p =
    State.accept ⟨{ alternatives := f.alternatives }, .operator t, enclosing⟩ p := by
  by_cases hand : p.current = some (.operator .and)
  · rw [accept_eq hand, accept_eq hand]
    rfl
  · exact accept_of_alternate rfl hand

/-! ## The methods of a parser -/

/-- Where a method goes on, the reader goes on from the one state to the other, which holds the tree that the
method returns; the method does not stop before one of these operators. -/
structure Follows (st : State) (after : Tree → State) (ops : List Operator) (p : ExpressionParser)
    (found : Except ExpressionError p.Parsed) : Prop where
  accept : st.accept p = found >>= fun parsed => (after parsed.tree).accept parsed.rest
  stops : ∀ parsed, found = .ok parsed → ∀ op ∈ ops, parsed.rest.current ≠ some (.operator op)

theorem negate_not (n : Nat) (t : Tree) : negate n (.not t) = negate (n + 1) t := by
  induction n with
  | zero => rfl
  | succ n ih =>
    rw [negate, ih]
    rfl

theorem accept_of_ne_closing {offset : Nat} {g : Frame} {t : Tree} (hclosing : p.current ≠ some .closing)
    (hstops : ∀ op ∈ [Operator.or, Operator.and], p.current ≠ some (.operator op)) :
    State.accept ⟨f, .operator t, (offset, g) :: enclosing⟩ p = .error ⟨offset, .missingClosing⟩ := by
  unfold State.accept
  cases hcurrent : p.current with
  | none => rfl
  | some s =>
    cases s with
    | tag name => rfl
    | opening => rfl
    | closing => exact absurd hcurrent hclosing
    | operator op =>
      cases op with
      | not => rfl
      | and => exact absurd hcurrent (hstops .and (by simp))
      | or => exact absurd hcurrent (hstops .or (by simp))

/-- An operand is read into the conjuncts. -/
theorem follows_primary
    {inner : (p : ExpressionParser) → p.size < n → Except ExpressionError p.Parsed}
    (hinner : ∀ p hp enclosing, Follows ⟨{}, .operand none, enclosing⟩ (fun t => ⟨{}, .operator t, enclosing⟩)
      [.or, .and] p (inner p hp))
    (f : Frame) {after : Option Operator} (enclosing : List (Nat × Frame)) (hp : p.size ≤ n)
    (hafter : after.isSome → StartsOperand p) (hnot : p.current ≠ some (.operator .not)) :
    Follows ⟨f, .operand after, enclosing⟩ (fun t => ⟨f, .operator (f.conjoin t), enclosing⟩) [] p
      (ExpressionParser.primary inner p hp) := by
  refine ⟨?_, by simp⟩
  unfold ExpressionParser.primary
  split
  case h_1 name hcurrent =>
    rw [accept_of_step ⟨f, .operator (f.conjoin (.tag name)), enclosing⟩ hcurrent rfl]
    cases p.advance hcurrent <;> rfl
  case h_2 hcurrent =>
    -- The automaton puts its frame aside and reads the inside with an empty one.
    rw [accept_of_step ⟨{}, .operand none, (p.offset, f) :: enclosing⟩ hcurrent rfl]
    cases p.advance hcurrent with
    | error e => rfl
    | ok behind =>
      obtain ⟨behind, hbehind⟩ := behind
      obtain ⟨haccept, hstops⟩ :=
        hinner behind (Nat.lt_of_lt_of_le hbehind hp) ((p.offset, f) :: enclosing)
      show State.accept _ behind = _
      rw [haccept]
      dsimp only [bind, Except.bind]
      cases hfound : inner behind (Nat.lt_of_lt_of_le hbehind hp) with
      | error e => rfl
      | ok inside =>
        dsimp only
        by_cases hclosing : inside.rest.current = some .closing
        · rw [dif_pos hclosing,
            accept_of_step ⟨f, .operator (f.conjoin inside.tree), enclosing⟩ hclosing rfl]
          cases inside.rest.advance hclosing <;> rfl
        · rw [dif_neg hclosing, accept_of_ne_closing hclosing (hstops inside hfound)]
  case h_3 s htag hopening hcurrent =>
    -- Behind an operator something starts an operand, so here no operator has been read.
    have hnone : after = none := by
      rw [← Option.not_isSome_iff_eq_none]
      intro hsome
      rcases hafter hsome with ⟨name, h⟩ | h | h
      · exact htag name (Option.some.inj (hcurrent.symm.trans h))
      · exact hopening (Option.some.inj (hcurrent.symm.trans h))
      · exact hnot h
    rw [hnone, accept_eq hcurrent]
    cases s with
    | tag name => exact (htag name rfl).elim
    | opening => exact (hopening rfl).elim
    | closing => rfl
    | operator op =>
      cases op with
      | not => exact absurd hcurrent hnot
      | and => rfl
      | or => rfl
  case h_4 hcurrent =>
    have hnone : after = none := by
      rw [← Option.not_isSome_iff_eq_none]
      intro hsome
      rcases hafter hsome with ⟨name, h⟩ | h | h <;> cases hcurrent.symm.trans h
    unfold State.accept
    rw [hnone, hcurrent]
    rfl

/-- A negated operand is read into the conjuncts as well. -/
theorem follows_negation {operand : ExpressionParser.Method n}
    (hoperand : ∀ f after enclosing p hp, (after.isSome → StartsOperand p) →
      p.current ≠ some (.operator .not) → Follows ⟨f, .operand after, enclosing⟩
        (fun t => ⟨f, .operator (f.conjoin t), enclosing⟩) [] p (operand p hp))
    (f : Frame) (after : Option Operator) (enclosing : List (Nat × Frame)) (p : ExpressionParser)
    (hp : p.size ≤ n) (hafter : after.isSome → StartsOperand p) :
    Follows ⟨f, .operand after, enclosing⟩ (fun t => ⟨f, .operator (f.conjoin t), enclosing⟩) [] p
      (ExpressionParser.negation operand p hp) := by
  -- The negations in front are read one by one, so the induction is on what is left to read.
  induction hsize : p.size using Nat.strongRecOn generalizing f after p with
  | ind size ih =>
    rw [ExpressionParser.negation]
    by_cases hnot : p.current = some (.operator .not)
    · rw [dif_pos hnot]
      refine ⟨?_, by simp⟩
      -- One more negation in the frame is one around the operand, once it has been read.
      let g : Frame := { f with negations := f.negations + 1 }
      have hconjoin (t : Tree) : g.conjoin t = f.conjoin (.not t) := by
        unfold Frame.conjoin
        rw [negate_not]
      rw [accept_of_step ⟨g, .operand (some .not), enclosing⟩ hnot rfl]
      cases p.advance hnot with
      | error e => rfl
      | ok behind =>
        obtain ⟨behind, hbehind⟩ := behind
        show State.accept _ behind = _
        dsimp only [bind, Except.bind]
        rcases ensureOperand_spec (p := behind) .not g enclosing with ⟨hensure, hstarts⟩ | ⟨e, hensure, he⟩
        · have hless : behind.size < size := hsize ▸ hbehind
          obtain ⟨haccept, -⟩ := ih behind.size hless g (some .not) behind
            (Nat.le_trans (Nat.le_of_lt hbehind) hp) (fun _ => hstarts) rfl
          rw [haccept, hensure]
          dsimp only
          cases ExpressionParser.negation operand behind (Nat.le_trans (Nat.le_of_lt hbehind) hp) with
          | error e => rfl
          | ok negated =>
            show State.accept ⟨g, .operator (g.conjoin negated.tree), enclosing⟩ negated.rest =
              State.accept ⟨f, .operator (f.conjoin (.not negated.tree)), enclosing⟩ negated.rest
            rw [hconjoin, accept_alternatives g, accept_alternatives f]
        · rw [hensure, he]
    · rw [dif_neg hnot]
      exact hoperand f after enclosing p hp hafter hnot

/-! ## Chains -/

/-- A chain of operands goes on from the trees that it makes: behind each, its operator brings the reader into a
state that waits for one more operand. -/
structure Links (op : Operator) (build : Tree → Tree → Tree) (operand : ExpressionParser.Method n)
    (stops : List Operator) (after : Tree → State) (frame : Tree → Frame) (enclosing : List (Nat × Frame)) :
    Prop where
  step (node : Tree) (offset : Nat) :
    (after node).step (offset, .operator op) = .ok ⟨frame node, .operand (some op), enclosing⟩
  operand (node : Tree) (p : ExpressionParser) (hp : p.size ≤ n) : StartsOperand p →
    Follows ⟨frame node, .operand (some op), enclosing⟩ (fun right => after (build node right)) stops p
      (operand p hp)

theorem follows_chainFrom {op : Operator} {build : Tree → Tree → Tree} {operand : ExpressionParser.Method n}
    {stops : List Operator} {after : Tree → State} {frame : Tree → Frame}
    (h : Links op build operand stops after frame enclosing) (node : Tree) (p : ExpressionParser)
    (hp : p.size ≤ n) (hstops : ∀ op ∈ stops, p.current ≠ some (.operator op)) :
    ((after node).accept p = ExpressionParser.chainFrom op build operand node p hp >>= fun found =>
      (after found.1).accept found.2.1) ∧
    ∀ found, ExpressionParser.chainFrom op build operand node p hp = .ok found →
      ∀ op' ∈ op :: stops, found.2.1.current ≠ some (.operator op') := by
  obtain ⟨size, hsize⟩ : ∃ size, p.size = size := ⟨_, rfl⟩
  -- A link reads at least its operator, so the rest of the chain is shorter.
  induction size using Nat.strongRecOn generalizing node p with
  | ind size ih =>
    rw [ExpressionParser.chainFrom]
    by_cases hop : p.current = some (.operator op)
    · rw [dif_pos hop, accept_of_step _ hop (h.step node p.offset)]
      dsimp only [bind, Except.bind]
      cases p.advance hop with
      | error e => exact ⟨rfl, by simp⟩
      | ok behind =>
        obtain ⟨behind, hbehind⟩ := behind
        dsimp only
        rcases ensureOperand_spec (p := behind) op (frame node) enclosing with
          ⟨hensure, hstarts⟩ | ⟨e, hensure, he⟩
        · have hle : behind.size ≤ n := Nat.le_trans (Nat.le_of_lt hbehind) hp
          -- The right operand, and then the rest of the chain from the tree that it makes with `node`.
          obtain ⟨haccept, hright⟩ := h.operand node behind hle hstarts
          rw [haccept, hensure]
          dsimp only [bind, Except.bind]
          cases hfound : operand behind hle with
          | error e => exact ⟨rfl, by simp⟩
          | ok right =>
            have hless : right.rest.size < p.size := Nat.lt_trans right.less hbehind
            have hmore := ih right.rest.size (hsize ▸ hless) (build node right.tree) right.rest
              (Nat.le_trans (Nat.le_of_lt hless) hp) (hright right hfound) rfl
            dsimp only [bind, Except.bind] at hmore ⊢
            cases hrest : ExpressionParser.chainFrom op build operand (build node right.tree) right.rest
                (Nat.le_trans (Nat.le_of_lt hless) hp) with
            | error e =>
              rw [hrest] at hmore
              exact ⟨hmore.1, by simp⟩
            | ok found =>
              rw [hrest] at hmore
              refine ⟨hmore.1, ?_⟩
              intro found' heq
              cases heq
              exact hmore.2 found rfl
        · rw [hensure, he]
          exact ⟨rfl, by simp⟩
    · rw [dif_neg hop]
      refine ⟨rfl, ?_⟩
      rintro found heq op' hop'
      cases heq
      rcases List.mem_cons.1 hop' with rfl | hop'
      · exact hop
      · exact hstops op' hop'

theorem follows_chain {op : Operator} {build : Tree → Tree → Tree} {operand : ExpressionParser.Method n}
    {stops : List Operator} {after : Tree → State} {frame : Tree → Frame}
    (h : Links op build operand stops after frame enclosing) {st : State} {hp : p.size ≤ n}
    (hfirst : Follows st after stops p (operand p hp)) :
    Follows st after (op :: stops) p (ExpressionParser.chain op build operand p hp) := by
  obtain ⟨haccept, hstops⟩ := hfirst
  unfold ExpressionParser.chain
  dsimp only [bind, Except.bind] at haccept ⊢
  cases hfound : operand p hp with
  | error e =>
    rw [hfound] at haccept
    exact ⟨haccept, by simp⟩
  | ok first =>
    rw [hfound] at haccept
    have hmore := follows_chainFrom h first.tree first.rest (Nat.le_trans (Nat.le_of_lt first.less) hp)
      (hstops first hfound)
    dsimp only [bind, Except.bind] at haccept hmore ⊢
    rw [← haccept] at hmore
    cases hrest : ExpressionParser.chainFrom op build operand first.tree first.rest
        (Nat.le_trans (Nat.le_of_lt first.less) hp) with
    | error e =>
      rw [hrest] at hmore
      exact ⟨hmore.1, by simp⟩
    | ok found =>
      rw [hrest] at hmore
      refine ⟨hmore.1, ?_⟩
      intro parsed heq
      cases heq
      exact hmore.2 found rfl

theorem Follows.congr {st : State} {after after' : Tree → State} {ops : List Operator}
    {found : Except ExpressionError p.Parsed} (h : Follows st after ops p found)
    (hafter : ∀ t (q : ExpressionParser), (∀ op ∈ ops, q.current ≠ some (.operator op)) →
      (after t).accept q = (after' t).accept q) : Follows st after' ops p found := by
  refine ⟨?_, h.stops⟩
  rw [h.accept]
  cases found with
  | error e => rfl
  | ok parsed => exact hafter _ _ (h.stops parsed rfl)

/-- A chain of conjuncts is read behind the alternatives. -/
theorem follows_conjuncts {operand : ExpressionParser.Method n}
    (hoperand : ∀ f after enclosing p hp, (after.isSome → StartsOperand p) →
      Follows ⟨f, .operand after, enclosing⟩ (fun t => ⟨f, .operator (f.conjoin t), enclosing⟩) [] p
        (operand p hp))
    (alternatives : Option Tree) (after : Option Operator) (enclosing : List (Nat × Frame))
    (hp : p.size ≤ n) (hafter : after.isSome → StartsOperand p) :
    Follows ⟨{ alternatives }, .operand after, enclosing⟩
      (fun t => ⟨{ alternatives }, .operator t, enclosing⟩) [.and] p
      (ExpressionParser.chain .and .and operand p hp) := by
  have hlinks : Links .and .and operand [] (fun t => ⟨{ alternatives }, .operator t, enclosing⟩)
      (fun node => { alternatives, conjuncts := some node }) enclosing := by
    refine ⟨fun _ _ => rfl, fun node q hq hstarts => ?_⟩
    have hright := hoperand { alternatives, conjuncts := some node } (some .and) enclosing q hq
      fun _ => hstarts
    exact hright.congr fun t r _ => accept_alternatives _ _
  exact follows_chain hlinks (hoperand { alternatives } after enclosing p hp hafter)

theorem follows_alternatives {operand : ExpressionParser.Method n}
    (hoperand : ∀ alternatives after enclosing p hp, (after.isSome → StartsOperand p) →
      Follows ⟨{ alternatives }, .operand after, enclosing⟩
        (fun t => ⟨{ alternatives }, .operator t, enclosing⟩) [.and] p (operand p hp))
    (enclosing : List (Nat × Frame)) (hp : p.size ≤ n) :
    Follows ⟨{}, .operand none, enclosing⟩ (fun t => ⟨{}, .operator t, enclosing⟩) [.or, .and] p
      (ExpressionParser.chain .or .or operand p hp) := by
  have hlinks : Links .or .or operand [.and] (fun t => ⟨{}, .operator t, enclosing⟩)
      (fun node => { alternatives := some node }) enclosing := by
    refine ⟨fun _ _ => rfl, fun node q hq hstarts => ?_⟩
    have hright := hoperand (some node) (some .or) enclosing q hq fun _ => hstarts
    exact hright.congr fun t r hr => accept_of_alternate rfl (hr .and (by simp))
  exact follows_chain hlinks (hoperand none none enclosing p hp (by simp))

theorem follows_expression (p : ExpressionParser) (enclosing : List (Nat × Frame)) :
    Follows ⟨{}, .operand none, enclosing⟩ (fun t => ⟨{}, .operator t, enclosing⟩) [.or, .and] p
      p.expression := by
  induction hsize : p.size using Nat.strongRecOn generalizing p enclosing with
  | ind size ih =>
    rw [ExpressionParser.expression]
    have hinner (inside : ExpressionParser) (hinside : inside.size < p.size) (outer : List (Nat × Frame)) :=
      ih inside.size (hsize ▸ hinside) inside outer rfl
    exact follows_alternatives (fun alternatives after outer q hq hafter =>
      follows_conjuncts (fun f after outer q hq hafter =>
        follows_negation (fun f after outer q hq hafter hnot =>
          follows_primary hinner f outer hq hafter hnot) f after outer q hq hafter)
        alternatives after outer hq hafter) enclosing (Nat.le_refl _)

end

end Reader

/-- The parser makes of a text what is read of it symbol by symbol. -/
theorem Tree.parse_eq (input : String) : Tree.parse input = ({} : Reader.State).feed (symbols 0 input.toList) := by
  rw [Reader.feed_eq]
  unfold Tree.parse
  cases ExpressionParser.next (symbols 0 input.toList) with
  | error e => rfl
  | ok p =>
    obtain ⟨haccept, hstops⟩ := Reader.follows_expression p []
    show _ = Reader.State.accept ⟨{}, .operand none, []⟩ p
    rw [haccept]
    dsimp only [bind, Except.bind]
    cases hfound : p.expression with
    | error e => rfl
    | ok parsed =>
      have hstop := hstops parsed hfound
      dsimp only
      unfold ExpressionParser.expectEnd Reader.State.accept
      cases hcurrent : parsed.rest.current with
      | none => rfl
      | some s =>
        cases s with
        | operator op =>
          cases op with
          | not => rfl
          | and => exact absurd hcurrent (hstop .and (by simp))
          | or => exact absurd hcurrent (hstop .or (by simp))
        | _ => rfl

end Gherkin.Tag
