import Gherkin.Document.Reader

/-!
# Parsers

A parser goes over the tokens of a source by their positions.  It looks at the token in front of it and goes past
it, except past the end of the source, where it stays.  Each of its loops goes on from pass to pass; a pass that
does not leave its loop takes a token, so every loop ends because the tokens run out.

A parser that meets a token it cannot use records a fault and skips to the next token that may open a block.
-/

namespace Gherkin

structure Parser where
  source : List Char
  tokens : Array Token
  /-- What is read behind the last token. -/
  finish : Token
  ends : finish.kind = .eof

/-- How far a parser has read, and what it has found wrong.  No end of the source is ever read past. -/
structure Parser.State (p : Parser) where
  position : Nat
  bound : position ≤ p.tokens.size
  passed : ∀ i (h : i < p.tokens.size), i < position → p.tokens[i].kind ≠ .eof
  errors : List ParseError

namespace Parser

/-- The end of a source, at the same place as the last token of it. -/
def closing (source : List Char) : Option Token → Token
  | some t => ⟨.eof, "", t.location, t.stop, none⟩
  | none =>
    let size := Text.byteLength source
    ⟨.eof, "", ⟨1, 1, size⟩, size, none⟩

def ofTokens (source : String) (ts : List Token) : Parser where
  source := source.toList
  tokens := ts.toArray
  finish := closing source.toList ts.getLast?
  ends := by cases ts.getLast? <;> rfl

variable {p : Parser}

def start (p : Parser) : State p := ⟨0, Nat.zero_le _, fun i _ h => (Nat.not_lt_zero i h).elim, []⟩

namespace State

def peek (s : State p) : Token := p.tokens[s.position]?.getD p.finish

def kind (s : State p) : TokenKind := s.peek.kind

theorem passed_succ {s : State p} (hkind : s.kind ≠ .eof) (i : Nat) (h : i < p.tokens.size)
    (hi : i < s.position + 1) : p.tokens[i].kind ≠ .eof := by
  rcases Nat.lt_succ_iff_lt_or_eq.1 hi with hlt | heq
  · exact s.passed i h hlt
  · unfold kind peek at hkind
    rwa [← heq, Array.getElem?_eq_getElem h] at hkind

/-- Behind the token in front; at an end of the source the parser stays. -/
def next (s : State p) : State p :=
  if h : s.position < p.tokens.size ∧ s.kind ≠ .eof then
    { s with position := s.position + 1, bound := h.1, passed := passed_succ h.2 }
  else s

def advance (s : State p) : Token × State p := (s.peek, s.next)

def backTo (s checkpoint : State p) : State p :=
  { s with position := checkpoint.position, bound := checkpoint.bound, passed := checkpoint.passed }

def record (s : State p) (e : ParseError) : State p := { s with errors := s.errors ++ [e] }

def recordAll (s : State p) (es : List ParseError) : State p := { s with errors := s.errors ++ es }

theorem lt_next {s : State p} (h : s.kind ≠ .eof) : s.position < s.next.position := by
  have hin : s.position < p.tokens.size := by
    apply Nat.lt_of_not_le
    intro hle
    apply h
    unfold kind peek
    rw [Array.getElem?_eq_none hle]
    exact p.ends
  unfold next
  rw [dif_pos ⟨hin, h⟩]
  exact Nat.lt_succ_self _

theorem le_next (s : State p) : s.position ≤ s.next.position := by
  unfold next
  split
  · exact Nat.le_succ _
  · exact Nat.le_refl _

end State

/-! ## Loops -/

/-- What a pass of a loop comes to: the loop is left with a result, or goes on. -/
inductive Pass (p : Parser) (σ α : Type) where
  | leave (result : α) (s : State p)
  | goOn (next : σ) (s : State p)

/-- A pass from a position never ends before it, and goes on only from a later one. -/
def Pass.Advances {σ α : Type} (position : Nat) : Pass p σ α → Prop
  | .leave _ s => position ≤ s.position
  | .goOn _ s => position < s.position

/-- A loop, by what a pass makes of all that the passes before it have made. -/
structure Loop (p : Parser) (σ α : Type) where
  pass : σ → State p → Pass p σ α
  advances : ∀ x s, (pass x s).Advances s.position

namespace Loop

variable {σ α : Type}

theorem le_of_leave (l : Loop p σ α) {x : σ} {s s' : State p} {a : α} (h : l.pass x s = .leave a s') :
    s.position ≤ s'.position := by
  have hadvances := l.advances x s
  rw [h] at hadvances
  exact hadvances

theorem lt_of_goOn (l : Loop p σ α) {x x' : σ} {s s' : State p} (h : l.pass x s = .goOn x' s') :
    s.position < s'.position := by
  have hadvances := l.advances x s
  rw [h] at hadvances
  exact hadvances

def run (l : Loop p σ α) (x : σ) (s : State p) : α × State p :=
  match h : l.pass x s with
  | .leave a s' => (a, s')
  | .goOn x' s' =>
    have : p.tokens.size - s'.position < p.tokens.size - s.position := by
      have hlt := l.lt_of_goOn h
      have hbound := s'.bound
      omega
    l.run x' s'
termination_by p.tokens.size - s.position

theorem run_of_leave (l : Loop p σ α) {x : σ} {s s' : State p} {a : α} (h : l.pass x s = .leave a s') :
    l.run x s = (a, s') := by
  rw [run]
  split
  case h_1 hpass =>
    rw [h] at hpass
    cases hpass
    rfl
  case h_2 hpass =>
    rw [h] at hpass
    cases hpass

theorem run_of_goOn (l : Loop p σ α) {x x' : σ} {s s' : State p} (h : l.pass x s = .goOn x' s') :
    l.run x s = l.run x' s' := by
  rw [run]
  split
  case h_1 hpass =>
    rw [h] at hpass
    cases hpass
  case h_2 hpass =>
    rw [h] at hpass
    cases hpass
    rfl

theorem le_run (l : Loop p σ α) (x : σ) (s : State p) : s.position ≤ (l.run x s).2.position := by
  fun_induction run l x s with
  | case1 x s a s' h => exact l.le_of_leave h
  | case2 x s x' s' h _ ih => exact Nat.le_trans (Nat.le_of_lt (l.lt_of_goOn h)) ih

end Loop

/-! ## Skipping -/

def skipLoop (passes : Token → Bool) : Loop p Unit Unit where
  pass _ s := if s.kind ≠ .eof ∧ passes s.peek then .goOn () s.next else .leave () s
  advances _ s := by
    split
    case isTrue h => exact s.lt_next h.1
    case isFalse => exact Nat.le_refl _

namespace State

def skipGaps (s : State p) : State p := ((skipLoop Reader.isGap).run () s).2

def skipLine (s : State p) : State p := ((skipLoop fun t => t.kind ≠ .newline).run () s).2

/-- Skips to a token at which reading can go on after a fault. -/
def synchronize (s : State p) : State p := ((skipLoop fun t => !Reader.isAnchor t).run () s).2

theorem le_skipGaps (s : State p) : s.position ≤ s.skipGaps.position := Loop.le_run _ _ _

theorem le_skipLine (s : State p) : s.position ≤ s.skipLine.position := Loop.le_run _ _ _

theorem le_synchronize (s : State p) : s.position ≤ s.synchronize.position := Loop.le_run _ _ _

/-- A line with a token in front of its end is not empty. -/
theorem lt_skipLine {s : State p} (heof : s.kind ≠ .eof) (hnewline : s.kind ≠ .newline) :
    s.position < s.skipLine.position := by
  have hpass : (skipLoop (p := p) fun t => t.kind ≠ .newline).pass () s = .goOn () s.next :=
    if_pos ⟨heof, decide_eq_true hnewline⟩
  unfold skipLine
  rw [Loop.run_of_goOn _ hpass]
  exact Nat.lt_of_lt_of_le (lt_next heof) (Loop.le_run _ _ _)

end State

/-! ## Tags -/

def tagLoop : Loop p Reader.TagRun Reader.TagRun where
  pass run s :=
    let s := s.skipGaps
    if s.kind = .tag then .goOn (run.add s.peek) s.next else .leave run s
  advances _ s := by
    dsimp only
    have hgaps := s.le_skipGaps
    split
    case isTrue h => exact Nat.lt_of_le_of_lt hgaps (State.lt_next (by simp [h]))
    case isFalse => exact hgaps

def State.tags (s : State p) : Reader.TagRun × State p := tagLoop.run ⟨[], none⟩ s

theorem State.le_tags (s : State p) : s.position ≤ s.tags.2.position := Loop.le_run _ _ _

/-! ## Descriptions -/

/-- Over lines of free text, with the number of line ends since the last of them.  A comment takes its own line end
with it. -/
def descriptionLoop : Loop p (List String × Nat) (Option String) where
  pass read s :=
    let (lines, newlines) := read
    match s.kind with
    | .newline => .goOn (lines, newlines + 1) s.next
    | .comment =>
      let s := s.next
      .goOn (lines, newlines) (if s.kind = .newline then s.next else s)
    | .text | .quotedString | .placeholder =>
      -- Line ends before the first line, and after the last, do not count.
      let blank := if lines.isEmpty then [] else List.replicate (newlines - 1) ""
      .goOn (lines ++ blank ++ [Reader.textFrom p.source s.peek.location.offset], 0) s.skipLine
    | _ => .leave (Reader.joinLines lines) s
  advances read s := by
    dsimp only
    split
    case h_1 h => exact State.lt_next (by simp [h])
    case h_2 h =>
      have hnext : s.position < s.next.position := State.lt_next (by simp [h])
      show s.position < (if _ then _ else _ : State p).position
      split
      · exact Nat.lt_of_lt_of_le hnext (State.le_next _)
      · exact hnext
    case h_3 h | h_4 h | h_5 h => exact State.lt_skipLine (by simp [h]) (by simp [h])
    case h_6 => exact Nat.le_refl _

def State.title (s : State p) (t : Token) : String × State p := (Reader.titleOf p.source t, s.skipLine)

def State.description (s : State p) : Option String × State p := descriptionLoop.run ([], 0) s

theorem State.le_title (s : State p) (t : Token) : s.position ≤ (s.title t).2.position := s.le_skipLine

theorem State.le_description (s : State p) : s.position ≤ s.description.2.position := Loop.le_run _ _ _

/-! ## Tables and doc strings -/

def rowLoop : Loop p (List (List String)) (List (List String)) where
  pass rows s :=
    if s.kind = .tableRow then
      let (row, s) := s.advance
      let cells := Table.splitCells row.text
      -- The first row tells how wide the others have to be.
      let width := (rows.head?.map List.length).getD cells.length
      .goOn (rows ++ [cells]) (s.recordAll (Reader.raggedRow? width row).toList).skipGaps
    else .leave rows s
  advances _ s := by
    split
    case isTrue h =>
      have hnext : s.position < s.next.position := State.lt_next (by simp [h])
      exact Nat.lt_of_lt_of_le hnext (State.le_skipGaps (s.next.recordAll _))
    case isFalse => exact Nat.le_refl _

namespace State

def table (s : State p) : Table × State p :=
  let location := s.peek.location
  let (rows, s) := rowLoop.run [] s
  (⟨rows, location⟩, s)

def docString (s : State p) : DocString × State p :=
  let (t, s) := s.advance
  (Reader.docString p.source t, s)

theorem le_table (s : State p) : s.position ≤ s.table.2.position := Loop.le_run rowLoop [] s

theorem le_docString (s : State p) : s.position ≤ s.docString.2.position := s.le_next

/-! ## Steps -/

def argument (s : State p) : (Option Table × Option DocString) × State p :=
  match s.kind with
  | .tableRow =>
    let (table, s) := s.table
    ((some table, none), s)
  | .docString =>
    let (docString, s) := s.docString
    ((none, some docString), s)
  | _ => ((none, none), s)

theorem le_argument (s : State p) : s.position ≤ s.argument.2.position := by
  unfold argument
  split
  · exact s.le_table
  · exact s.le_docString
  · exact Nat.le_refl _

def step (s : State p) (k : StepKeyword) : Step × State p :=
  let (t, s) := s.advance
  let (text, s) := s.title t
  let blank := if text.isEmpty then [Reader.order (.stepWithoutText k) t.location] else []
  let ((table, docString), s) := (s.recordAll blank).skipGaps.argument
  (⟨k, text, table, docString, t.location⟩, s)

theorem lt_step {s : State p} (k : StepKeyword) (h : s.kind ≠ .eof) :
    s.position < (s.step k).2.position := by
  have htitle := s.next.le_title s.peek
  have hgaps := fun blank => ((s.next.title s.peek).2.recordAll blank).le_skipGaps
  exact Nat.lt_of_lt_of_le (lt_next h)
    (Nat.le_trans htitle (Nat.le_trans (hgaps _) (le_argument _)))

end State

def stepLoop : Loop p (List Step) (List Step) where
  pass found s :=
    let s := s.skipGaps
    match s.kind with
    | .step k =>
      let (step, s) := s.step k
      .goOn (found ++ [step]) s
    | .tableRow => .leave found (s.record (Reader.order .tableWithoutStep s.peek.location)).synchronize
    | .docString => .leave found (s.record (Reader.order .docStringWithoutStep s.peek.location)).next.synchronize
    | .text | .quotedString | .placeholder =>
      .leave found (s.record (Reader.order .textAmongSteps s.peek.location)).synchronize
    | _ => .leave found s
  advances _ s := by
    have hgaps := s.le_skipGaps
    dsimp only
    split
    case h_1 k h => exact Nat.lt_of_le_of_lt hgaps (State.lt_step k (by simp [h]))
    case h_3 =>
      have hnext := State.le_next (s.skipGaps.record (Reader.order .docStringWithoutStep s.skipGaps.peek.location))
      exact Nat.le_trans hgaps (Nat.le_trans hnext (State.le_synchronize _))
    case h_7 => exact hgaps
    all_goals exact Nat.le_trans hgaps (State.le_synchronize (State.record _ _))

def State.steps (s : State p) : List Step × State p := stepLoop.run [] s

theorem State.le_steps (s : State p) : s.position ≤ s.steps.2.position := Loop.le_run _ _ _

/-! ## Examples -/

def State.examples (s : State p) (tags : List String) : Examples × State p :=
  let (t, s) := s.advance
  let name := Reader.optionalTitleOf p.source t
  let (description, s) := s.skipLine.description
  let s := s.skipGaps
  if s.kind = .tableRow then
    let (table, s) := s.table
    (⟨name, description, tags, some table, t.location⟩, s)
  else (⟨name, description, tags, none, t.location⟩, s)

theorem State.lt_examples {s : State p} (tags : List String) (h : s.kind ≠ .eof) :
    s.position < (s.examples tags).2.position := by
  have hgaps : s.next.position ≤ s.next.skipLine.description.2.skipGaps.position :=
    Nat.le_trans (le_skipLine _) (Nat.le_trans (le_description _) (le_skipGaps _))
  apply Nat.lt_of_lt_of_le (lt_next h)
  show _ ≤ (if _ then _ else _ : Examples × State p).2.position
  split
  · exact Nat.le_trans hgaps (le_table _)
  · exact hgaps

/-- Over the blocks of examples of a scenario.  The tags in front of anything else are not taken. -/
def exampleLoop : Loop p (List Examples) (List Examples) where
  pass found checkpoint :=
    let (run, s) := checkpoint.tags
    match s.kind with
    | .block .examples =>
      let (block, s) := s.examples run.tags
      .goOn (found ++ [block]) s
    | .step _ =>
      -- Before the first block the step belongs to whoever reads on, as do the tags.
      if found.isEmpty then .leave found (s.backTo checkpoint)
      else .goOn found (s.record (Reader.order .stepAfterExamples s.peek.location)).next.synchronize
    | _ => .leave found (s.backTo checkpoint)
  advances found s := by
    have htags := s.le_tags
    dsimp only
    split
    case h_1 h => exact Nat.lt_of_le_of_lt htags (State.lt_examples _ (by simp [h]))
    case h_2 h =>
      split
      · exact Nat.le_refl _
      · have hnext := State.lt_next (s := s.tags.2.record (Reader.order .stepAfterExamples s.tags.2.peek.location))
          (show s.tags.2.kind ≠ .eof by simp [h])
        exact Nat.lt_of_le_of_lt htags (Nat.lt_of_lt_of_le hnext (State.le_synchronize _))
    case h_3 => exact Nat.le_refl _

def State.exampleBlocks (s : State p) : List Examples × State p := exampleLoop.run [] s

theorem State.le_exampleBlocks (s : State p) : s.position ≤ s.exampleBlocks.2.position := Loop.le_run _ _ _

/-! ## Scenarios and backgrounds -/

namespace State

/-- The scenario or outline in front.  A scenario with examples is an outline, whatever its keyword. -/
def child (s : State p) (tags : List String) : Child × State p :=
  let (t, s) := s.advance
  let (name, s) := s.title t
  let (description, s) := s.description
  let (steps, s) := s.steps
  let (blocks, s) := s.exampleBlocks
  if t.kind = .block .scenarioOutline || !blocks.isEmpty then
    let o : Outline := ⟨name, description, tags, steps, blocks, t.location⟩
    (.outline o, s.recordAll (Reader.checkOutline o))
  else (.scenario ⟨name, description, tags, steps, t.location⟩, s)

theorem lt_child {s : State p} (tags : List String) (h : s.kind ≠ .eof) :
    s.position < (s.child tags).2.position := by
  have hdescription : s.next.position ≤ (s.next.title s.peek).2.description.2.position :=
    Nat.le_trans (le_title _ _) (le_description _)
  have hblocks := Nat.le_trans hdescription (Nat.le_trans (le_steps _) (le_exampleBlocks _))
  apply Nat.lt_of_lt_of_le (lt_next h)
  show _ ≤ (if _ then _ else _ : Child × State p).2.position
  split <;> exact hblocks

def background (s : State p) (f : Feature) : Feature × State p :=
  let (t, s) := s.advance
  let fault? := Reader.backgroundFault? f
  let s := s.recordAll (fault?.map (Reader.order · t.location)).toList
  let name := Reader.optionalTitleOf p.source t
  let (description, s) := s.skipLine.description
  let (steps, s) := s.steps
  (if fault?.isNone then { f with background := some ⟨name, description, steps, t.location⟩ } else f, s)

theorem lt_background {s : State p} (f : Feature) (h : s.kind ≠ .eof) :
    s.position < (s.background f).2.position := by
  have hdescription (faults : List ParseError) :
      s.next.position ≤ (s.next.recordAll faults).skipLine.description.2.position :=
    Nat.le_trans (le_skipLine (s.next.recordAll faults)) (le_description _)
  exact Nat.lt_of_lt_of_le (lt_next h) (Nat.le_trans (hdescription _) (le_steps _))

end State

/-! ## Features -/

def bodyLoop : Loop p Feature Feature where
  pass f s :=
    let (run, s) := s.tags
    match s.kind with
    | .eof => .leave f (s.recordAll run.stray)
    | .block .background =>
      let (f, s) := (s.recordAll (run.location.map (Reader.order .tagsOnBackground)).toList).background f
      .goOn f s
    | .block .scenario | .block .scenarioOutline =>
      let (child, s) := s.child run.tags
      .goOn { f with children := f.children ++ [child] } s
    -- Examples without an outline are read like any others, but not kept.
    | .block .examples =>
      let (_, s) := (s.record (Reader.order .examplesOutsideOutline s.peek.location)).examples []
      .goOn f s
    -- Whatever else starts here is reported together with the tags in front of it, which belong to nothing.
    | kind =>
      let s := s.recordAll (run.stray ++ [Reader.order (Reader.strayFault kind) s.peek.location])
      .goOn f s.next.synchronize
  advances f s := by
    have htags := s.le_tags
    dsimp only
    split
    case h_1 => exact htags
    case h_2 h =>
      exact Nat.lt_of_le_of_lt htags (State.lt_background (s := s.tags.2.recordAll _) f
        (show s.tags.2.kind ≠ .eof by simp [h]))
    case h_3 h | h_4 h => exact Nat.lt_of_le_of_lt htags (State.lt_child _ (by simp [h]))
    case h_5 h =>
      exact Nat.lt_of_le_of_lt htags (State.lt_examples (s := s.tags.2.record _) []
        (show s.tags.2.kind ≠ .eof by simp [h]))
    case h_6 h _ _ _ _ =>
      have hnext (es : List ParseError) := State.lt_next (s := s.tags.2.recordAll es) h
      exact Nat.lt_of_le_of_lt htags (Nat.lt_of_lt_of_le (hnext _) (State.le_synchronize _))

/-- Up to the header of the feature.  What comes before it is reported once. -/
def headerLoop : Loop p Bool (Option (List String × Token)) where
  pass reported s :=
    let (run, s) := s.tags
    match s.kind with
    | .block .feature =>
      let (header, s) := s.advance
      .leave (some (run.tags, header)) s
    | .eof =>
      .leave none (if reported then s else s.record (Reader.order (.missingFeature none) s.peek.location))
    | kind =>
      let s := if reported then s else s.record (Reader.order (.missingFeature (some kind)) s.peek.location)
      .goOn true s.next
  advances reported s := by
    have htags := s.le_tags
    dsimp only
    split
    case h_1 => exact Nat.le_trans htags (State.le_next _)
    case h_2 =>
      show s.position ≤ (if _ then _ else _ : State p).position
      split <;> exact htags
    case h_3 h =>
      apply Nat.lt_of_le_of_lt htags
      split
      · exact State.lt_next h
      · exact State.lt_next (s := State.record s.tags.2 _) h

/-- Reads a feature.  Only tokens without a header are refused. -/
def parse (p : Parser) : Except (List ParseError) Parsed :=
  let (found, s) := headerLoop.run false p.start
  match found with
  | none => .error s.errors
  | some (tags, t) =>
    let (name, s) := s.title t
    let (description, s) := s.description
    let opened : Feature :=
      { name, description, tags, background := none, children := [], location := t.location }
    let (feature, s) := bodyLoop.run opened s
    .ok ⟨feature, s.errors⟩

end Parser

def Parsed.ofTokens (source : String) (ts : List Token) : Except (List ParseError) Parsed :=
  (Parser.ofTokens source ts).parse

end Gherkin
