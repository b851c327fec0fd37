import Gherkin.Outline
import Gherkin.Tag.Symbol

/-!
# Tag expressions

A tag expression selects lists of tags.  `not` binds more tightly than `and`, and `and` more tightly
than `or`.  A parser descends from the loosest to the tightest of them, with one method for each, and
looks at one symbol at a time.
-/

namespace Gherkin.Tag

inductive Tree where
  | tag (name : String)
  | not (t : Tree)
  | and (l r : Tree)
  | or (l r : Tree)
deriving DecidableEq, Repr

/-- The value on a list of tags; a tag means that the list holds it as it is written. -/
def Tree.eval (tags : List String) : Tree → Bool
  | .tag name => tags.contains name
  | .not t => !t.eval tags
  | .and l r => l.eval tags && r.eval tags
  | .or l r => l.eval tags || r.eval tags

/-- A parser that has read up to a symbol, its current one.  Behind the last symbol there is none, at the end of the
text. -/
structure ExpressionParser where
  offset : Nat
  current : Option Symbol
  /-- The symbols behind the current one. -/
  later : Symbols

namespace ExpressionParser

def size (p : ExpressionParser) : Nat := p.current.toList.length + p.later.placed.length

def next (later : Symbols) : Except ExpressionError ExpressionParser :=
  match later.placed, later.fault with
  | (offset, s) :: placed, _ => .ok ⟨offset, some s, { later with placed }⟩
  | [], some fault => .error ⟨later.stop, fault⟩
  | [], none => .ok ⟨later.stop, none, later⟩

theorem size_of_next {later : Symbols} {p : ExpressionParser} (h : next later = .ok p) :
    p.size = later.placed.length := by
  unfold next at h
  split at h
  case h_1 hplaced =>
    cases h
    rw [hplaced]
    exact Nat.add_comm _ _
  case h_2 => cases h
  case h_3 hplaced _ =>
    cases h
    exact Nat.zero_add _

structure Parsed (p : ExpressionParser) where
  tree : Tree
  rest : ExpressionParser
  less : rest.size < p.size

/-- Parses what is in front of a parser, where at most `n` symbols are. -/
abbrev Method (n : Nat) := (p : ExpressionParser) → p.size ≤ n → Except ExpressionError p.Parsed

def advance (p : ExpressionParser) {s : Symbol} (h : p.current = some s) :
    Except ExpressionError { rest : ExpressionParser // rest.size < p.size } :=
  match hnext : next p.later with
  | .ok rest => .ok ⟨rest, by
      rw [size_of_next hnext, size, h]
      exact Nat.lt_add_of_pos_left Nat.one_pos⟩
  | .error e => .error e

def ensureOperand (p : ExpressionParser) (op : Operator) : Except ExpressionError Unit :=
  match p.current with
  | none | some .closing | some (.operator .and) | some (.operator .or) =>
    .error ⟨p.offset, .missingOperandAfter op⟩
  | _ => .ok ()

section
variable {n : Nat}

/-- The operators and operands behind an operand, taken together from the left. -/
def chainFrom (op : Operator) (build : Tree → Tree → Tree) (operand : Method n) (node : Tree)
    (p : ExpressionParser) (hp : p.size ≤ n) :
    Except ExpressionError (Tree × { rest : ExpressionParser // rest.size ≤ p.size }) :=
  if h : p.current = some (.operator op) then do
    let ⟨behind, hbehind⟩ ← p.advance h
    behind.ensureOperand op
    let right ← operand behind (Nat.le_trans (Nat.le_of_lt hbehind) hp)
    have hright : right.rest.size < p.size := Nat.lt_trans right.less hbehind
    let (tree, ⟨rest, hrest⟩) ← chainFrom op build operand (build node right.tree) right.rest
      (Nat.le_trans (Nat.le_of_lt hright) hp)
    .ok (tree, ⟨rest, Nat.le_trans hrest (Nat.le_of_lt hright)⟩)
  else .ok (node, ⟨p, Nat.le_refl _⟩)
termination_by p.size

def chain (op : Operator) (build : Tree → Tree → Tree) (operand : Method n) : Method n := fun p hp => do
  let first ← operand p hp
  let (tree, ⟨rest, hrest⟩) ← chainFrom op build operand first.tree first.rest
    (Nat.le_trans (Nat.le_of_lt first.less) hp)
  .ok ⟨tree, rest, Nat.lt_of_le_of_lt hrest first.less⟩

def primary (inner : (p : ExpressionParser) → p.size < n → Except ExpressionError p.Parsed) : Method n :=
  fun p hp =>
    match h : p.current with
    | some (.tag name) => do
      let ⟨rest, hrest⟩ ← p.advance h
      .ok ⟨.tag name, rest, hrest⟩
    | some .opening => do
      let ⟨behind, hbehind⟩ ← p.advance h
      let inside ← inner behind (Nat.lt_of_lt_of_le hbehind hp)
      -- The error is at the opening parenthesis, where the group began.
      if hclosing : inside.rest.current = some .closing then do
        let ⟨rest, hrest⟩ ← inside.rest.advance hclosing
        .ok ⟨inside.tree, rest, Nat.lt_trans hrest (Nat.lt_trans inside.less hbehind)⟩
      else .error ⟨p.offset, .missingClosing⟩
    | some s => .error ⟨p.offset, .missingOperandBefore s⟩
    | none => .error ⟨p.offset, .missingOperand⟩

def negation (operand : Method n) (p : ExpressionParser) (hp : p.size ≤ n) : Except ExpressionError p.Parsed :=
  if h : p.current = some (.operator .not) then do
    let ⟨behind, hbehind⟩ ← p.advance h
    -- What is missing behind the operator is reported before what stands there is parsed.
    behind.ensureOperand .not
    let negated ← negation operand behind (Nat.le_trans (Nat.le_of_lt hbehind) hp)
    .ok ⟨.not negated.tree, negated.rest, Nat.lt_trans negated.less hbehind⟩
  else operand p hp
termination_by p.size

end

def expression (p : ExpressionParser) : Except ExpressionError p.Parsed :=
  chain .or .or (chain .and .and (negation (primary fun inside _ => inside.expression))) p (Nat.le_refl _)
termination_by p.size

def expectEnd (p : ExpressionParser) : Except ExpressionError Unit :=
  match p.current with
  | none => .ok ()
  | some s => .error ⟨p.offset, .unexpectedSymbol s⟩

end ExpressionParser

def Tree.parse (input : String) : Except ExpressionError Tree := do
  let p ← ExpressionParser.next (symbols 0 input.toList)
  let parsed ← p.expression
  parsed.rest.expectEnd
  .ok parsed.tree

structure Expression where
  /-- The text without the blanks around it. -/
  source : String
  tree : Tree
deriving Repr

namespace Expression

/-- Expressions are the same if they are written the same. -/
instance : BEq Expression := ⟨fun a b => a.source == b.source⟩

def parse (input : String) : Except ExpressionError Expression :=
  (Tree.parse input).map fun tree => ⟨Text.trimmed input, tree⟩

def accepts (e : Expression) (tags : List String) : Bool := e.tree.eval tags

end Expression

end Tag

def Feature.filterByTags (f : Feature) (e : Tag.Expression) : List Scenario :=
  f.allScenarios.filter fun s => e.accepts (f.effectiveTags s)

end Gherkin
