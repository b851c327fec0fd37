import Gherkin.Proofs.Token.Lexing
import Gherkin.Proofs.Token.Tiling

/-!
# A cursor passes the results of a scan

Wherever a cursor stands, what a scan still yields from there on is what the cursor reads next, followed by what the
scan yields from where the cursor stands then.
-/

namespace Gherkin

/-- What starts with no character of a word has no part in the word at the front. -/
theorem Text.dropWord?_append {word cs tail : List Char} (h : ∀ c ∈ tail.head?, c ∉ word) :
    dropWord? word (cs ++ tail) = (dropWord? word cs).map (· ++ tail) := by
  fun_induction dropWord? word cs with
  | case1 => rfl
  | case2 w ws =>
    cases tail with
    | nil => rfl
    | cons c tail =>
      apply if_neg
      rintro rfl
      exact h w rfl List.mem_cons_self
  | case3 w ws cs ih =>
    rw [List.cons_append, dropWord?, if_pos rfl]
    exact ih fun c hc hmem => h c hc (List.mem_cons_of_mem _ hmem)
  | case4 w ws c cs hne =>
    rw [List.cons_append, dropWord?, if_neg hne]
    rfl

theorem Delimiter.not_mem_chars {d : Delimiter} {c : Char} (hdouble : c ≠ '"') (htick : c ≠ '`') : c ∉ d.chars := by
  cases d <;> simp [chars, mark, hdouble, htick]

theorem Delimiter.opening?_append_lineEnd {cs tail : List Char} (htail : Text.AtLineEnd tail) :
    opening? (cs ++ tail) = (opening? cs).map fun found => (found.1, found.2 ++ tail) := by
  have hdrop (d : Delimiter) : Text.dropWord? d.chars (cs ++ tail) = (Text.dropWord? d.chars cs).map (· ++ tail) := by
    apply Text.dropWord?_append
    intro c hc
    rcases htail with rfl | ⟨rest, rfl | rfl⟩
    · cases hc
    · cases hc
      exact not_mem_chars (by decide) (by decide)
    · cases hc
      exact not_mem_chars (by decide) (by decide)
  unfold opening?
  rw [hdrop, hdrop]
  cases Text.dropWord? backticks.chars cs with
  | some rest => rfl
  | none => cases Text.dropWord? doubleQuotes.chars cs <;> rfl

/-- Carriage returns at the end of a line have no part in the delimiter that closes a doc string. -/
theorem Delimiter.closes_dropEndWhile_cr (d : Delimiter) (cs : List Char) :
    d.closes (Text.dropEndWhile (· = '\r') cs) = d.closes cs := by
  obtain ⟨dropped, hcs, hdropped, hblank⟩ := Text.exists_eq_dropEndWhile_cr cs
  generalize Text.dropEndWhile (· = '\r') cs = kept at hcs ⊢
  subst hcs
  unfold closes Text.trimStart
  rw [List.dropWhile_append]
  split
  case isTrue hnil => rw [List.dropWhile_eq_nil_iff.2 hblank, List.isEmpty_iff.1 hnil]
  case isFalse =>
    rw [Text.dropWord?_append, Option.isSome_map]
    intro c hc
    rw [hdropped c (List.mem_of_mem_head? hc)]
    exact not_mem_chars (by decide) (by decide)

theorem Lexeme.Takes.ne_nil {lx : Lexeme} {c : Char} {cs : List Char} (h : lx.Takes c cs) : lx.span ++ lx.slack ≠ [] := by
  obtain ⟨tail, hspan, -⟩ := h
  rw [hspan]
  exact List.cons_ne_nil c tail

namespace Scan

/-- A blank in front of a line moves the place of the line, and changes nothing else. -/
theorem ofBody_cons_gap (d : Dialect) (place : Place) (afterBlank : Bool) (loc : Location) {x : Char} (hx : isGap x)
    (body : List Char) : ofBody d place afterBlank loc (x :: body) = ofBody d place true (loc.next x) body := by
  have hdrop : (x :: body).dropWhile isGap = body.dropWhile isGap := List.dropWhile_cons_of_pos hx
  cases hbody : body.dropWhile isGap with
  | nil => rw [ofBody_of_dropWhile_eq_nil (hdrop.trans hbody), ofBody_of_dropWhile_eq_nil hbody]
  | cons y more =>
    rw [ofBody_of_dropWhile_eq_cons (hdrop.trans hbody), ofBody_of_dropWhile_eq_cons hbody,
      List.takeWhile_cons_of_pos hx]
    dsimp only
    rw [Location.past_cons, List.isEmpty_cons, Bool.not_false, Bool.or_true, Bool.true_or]

theorem fence?_cons_gap {x : Char} (hx : isGap x) (body : List Char) (ending : Text.LineEnd) :
    fence? ⟨x :: body, ending⟩ = (fence? ⟨body, ending⟩).map fun f => { f with indent := x :: f.indent } := by
  unfold fence?
  dsimp only
  rw [List.dropWhile_cons_of_pos hx, List.takeWhile_cons_of_pos hx, Option.map_map]
  rfl

theorem line_cons_gap (d : Dialect) (loc : Location) (afterBlank : Bool) {x : Char} (hx : isGap x)
    (body : List Char) (ending : Text.LineEnd) (ls : List Text.Line) :
    line d loc afterBlank ⟨x :: body, ending⟩ ls = line d (loc.next x) true ⟨body, ending⟩ ls := by
  unfold line
  rw [fence?_cons_gap hx]
  cases fence? ⟨body, ending⟩ with
  | none =>
    dsimp only [Option.map_none]
    rw [ofBody_cons_gap d .first afterBlank loc hx]
    rfl
  | some f => rfl

theorem lines_cons_gap (d : Dialect) (loc : Location) (afterBlank : Bool) {x : Char} (hx : isGap x)
    (body : List Char) (ending : Text.LineEnd) (ls : List Text.Line) :
    lines d loc afterBlank (⟨x :: body, ending⟩ :: ls) = lines d (loc.next x) true (⟨body, ending⟩ :: ls) := by
  rw [lines, lines, line_cons_gap d loc afterBlank hx]
  rfl

section
variable {d : Dialect} {loc : Location} {afterBlank : Bool} {l : Text.Line} {ls : List Text.Line} {f : Fence}
  (hfence : fence? l = some f) (hindent : f.indent = [])
include hfence hindent

/-- A doc string at the start of a line, up to the line that closes it. -/
theorem lines_of_closed {inner rest : List Text.Line} {closer : Text.Line}
    (hcut : cut? (fun l => f.delimiter.closes l.body) ls = some (inner, closer, rest)) :
    lines d loc afterBlank (l :: ls) =
      let span := f.openingSpan ++ l.ending.chars ++ inner.flatMap Text.Line.chars ++ closer.body
      f.token loc (f.delimiter.content (loc.column - 1) inner) span ::
        (ofEnding (loc.past span) closer.ending ++
          lines d ((loc.past span).past closer.ending.chars) true rest) := by
  have hbody := (body_eq_of_fence? hfence).1
  rw [hindent, List.nil_append] at hbody
  rw [lines]
  unfold line
  rw [hfence]
  dsimp only
  rw [hcut, hindent]
  unfold advance Text.Line.chars
  rw [hbody]
  simp only [Location.past_nil, Location.past_append, List.flatMap_append, List.flatMap_singleton, List.append_assoc,
    List.cons_append]

/-- A doc string at the start of a line that is not closed takes the line. -/
theorem lines_of_unclosed (hcut : cut? (fun l => f.delimiter.closes l.body) ls = none) :
    lines d loc afterBlank (l :: ls) = .error ⟨.unterminatedDocString, loc⟩ :: f.token loc [] f.openingSpan ::
      (ofEnding (loc.past f.openingSpan) l.ending ++
        lines d ((loc.past f.openingSpan).past l.ending.chars) true ls) := by
  have hbody := (body_eq_of_fence? hfence).1
  rw [hindent, List.nil_append] at hbody
  rw [lines]
  unfold line
  rw [hfence]
  dsimp only
  rw [hcut, hindent]
  unfold advance Text.Line.chars
  rw [hbody, List.flatMap_nil, List.append_nil, Location.past_append]
  rfl

end

end Scan

namespace Cursor

variable {c : Cursor} {x : Char} {as bs cs : List Char}

/-! ## A token of a line -/

def place (c : Cursor) : Place := if c.atLineStart then .first else if c.tagLine then .tags else .inside

theorem opening?_rest (c : Cursor) : Delimiter.opening? c.rest =
    (Delimiter.opening? c.line.body).map fun found => (found.1, found.2 ++ (c.line.ending.chars ++ c.later)) := by
  conv => lhs; rw [c.rest_eq]
  exact Delimiter.opening?_append_lineEnd c.atLineEnd_tail

theorem reads_lexLineStart (h : c.line.body = x :: cs) (hopening : Delimiter.opening? (x :: cs) = none)
    (hat : x ≠ '@') : c.Reads (.take c.dialect .first c.quoteMayOpen x cs) (c.lexLineStart x) := by
  unfold lexLineStart
  split
  case h_1 => exact reads_comment h
  case h_2 => exact absurd rfl hat
  case h_3 => exact reads_tableRow h
  case h_4 hcomment htag hrow =>
    unfold Lexeme.take
    dsimp only
    rw [opening?_rest, h, hopening, if_neg hcomment, if_neg htag, if_neg hrow]
    dsimp only [Option.map_none]
    by_cases halpha : Text.isAlphabetic x
    · rw [if_pos halpha, if_pos halpha]
      exact reads_keywordOrText h
    · rw [if_neg halpha, if_neg halpha]
      exact reads_inline h

theorem reads_lexHere (h : c.line.body = x :: cs)
    (hopening : c.atLineStart → Delimiter.opening? (x :: cs) = none) :
    Reads { c with atLineStart := false, tagLine := c.tagLine || (c.atLineStart && x = '@') }
      (.take c.dialect c.place c.quoteMayOpen x cs) (c.lexHere x) := by
  let here : Cursor := { c with atLineStart := false }
  unfold lexHere place
  dsimp only
  -- `place` is read off the two flags, so the rules for a place are tried under the same conditions.
  by_cases hstart : c.atLineStart
  · rw [if_pos hstart, if_pos hstart, hstart]
    by_cases hat : x = '@'
    · subst hat
      rw [decide_eq_true rfl, Bool.true_and, Bool.or_true]
      exact reads_tag (c := { here with tagLine := true }) h
    · rw [decide_eq_false hat, Bool.and_false, Bool.or_false]
      exact reads_lexLineStart (c := here) h (hopening hstart) hat
  · rw [if_neg hstart, if_neg hstart, Bool.eq_false_iff.2 hstart, Bool.false_and, Bool.or_false]
    by_cases htags : c.tagLine
    · rw [if_pos htags]
      unfold Lexeme.take
      dsimp only
      by_cases hat : x = '@'
      · have hand : c.tagLine = true ∧ x = '@' := ⟨htags, hat⟩
        rw [if_pos hand, if_pos hat]
        exact reads_tag (c := here) (hat ▸ h)
      · have hand : ¬ (c.tagLine = true ∧ x = '@') := not_and_of_not_right _ hat
        rw [if_neg hand, if_neg hat]
        by_cases hhash : x = '#'
        · have hand : c.tagLine = true ∧ x = '#' := ⟨htags, hhash⟩
          rw [if_pos hand, if_pos hhash]
          exact reads_comment (c := here) (hhash ▸ h)
        · have hand : ¬ (c.tagLine = true ∧ x = '#') := not_and_of_not_right _ hhash
          rw [if_neg hand, if_neg hhash]
          exact reads_inline (c := here) h
    · have hat : ¬ (c.tagLine = true ∧ x = '@') := not_and_of_not_left _ htags
      have hhash : ¬ (c.tagLine = true ∧ x = '#') := not_and_of_not_left _ htags
      rw [if_neg htags, if_neg hat, if_neg hhash]
      exact reads_inline (c := here) h

/-! ## Doc strings -/

theorem restore_advanceToLineEnd (c checkpoint : Cursor) :
    c.advanceToLineEnd.restore checkpoint = c.restore checkpoint := by
  rw [advanceToLineEnd_eq, advanceOver_body (List.append_nil c.line.body).symm]
  rfl

/-- A line end, if there is one, takes the cursor to what follows its line. -/
theorem consumeNewline_eq (h : c.line.body = []) : c.consumeNewline =
    if c.line.ending = .missing then none
    else some
      { c with
        before := some '\n'
        rest := c.later
        location := c.location.past c.line.ending.chars
        atLineStart := true
        tagLine := false } := by
  unfold consumeNewline line later at *
  generalize c.rest = cs at *
  fun_cases Text.firstLine cs with
  | case1 => rfl
  | case2 => rfl
  | case3 => rfl
  | case4 x cs hlf hcrlf =>
    rw [Text.firstLine.eq_4 x cs hlf hcrlf] at h
    cases h

theorem restore_consumeNewline {next : Cursor} (h : c.consumeNewline = some next) (checkpoint : Cursor) :
    next.restore checkpoint = c.restore checkpoint := by
  unfold consumeNewline at h
  split at h <;> cases h <;> rfl

theorem restore_docStringLines? (delimiter : Delimiter) (indent : Nat) (lines : List (List Char))
    (c checkpoint : Cursor) :
    (c.docStringLines? delimiter indent lines).2.restore checkpoint = c.restore checkpoint := by
  fun_induction docStringLines? delimiter indent lines c with
  | case1 => rfl
  | case2 lines c next h hlt hcloses => rw [restore_advanceToLineEnd, restore_consumeNewline h]
  | case3 lines c next h hlt hcloses ih => rw [ih, restore_advanceToLineEnd, restore_consumeNewline h]

/-- From `c` to `c'` a cursor passes the characters `span`, up to the end of a line before the lines `ls`. -/
structure StopsAt (c : Cursor) (span : List Char) (ending : Text.LineEnd) (ls : List Text.Line) (c' : Cursor) :
    Prop where
  dialect : c'.dialect = c.dialect
  source : c'.source = c.source
  finished : c'.finished = c.finished
  errors : c'.errors = c.errors
  location : c'.location = c.location.past span
  line : c'.line = ⟨[], ending⟩
  lines : Text.lines c'.later = ls

theorem stopsAt_advanceToLineEnd (c : Cursor) :
    c.StopsAt c.line.body c.line.ending (Text.lines c.later) c.advanceToLineEnd := by
  have hbody : c.line.body = c.line.body ++ [] := (List.append_nil _).symm
  obtain ⟨hline, hlater⟩ := firstLine_advanceOver hbody
  rw [advanceToLineEnd_eq]
  refine ⟨?_, ?_, ?_, ?_, ?_, hline, congrArg Text.lines hlater⟩
  all_goals rw [advanceOver_body hbody]

theorem StopsAt.trans {c' c'' : Cursor} {ending ending' : Text.LineEnd} {ls ls' : List Text.Line}
    (h : c.StopsAt as ending ls c') (h' : c'.StopsAt bs ending' ls' c'') : c.StopsAt (as ++ bs) ending' ls' c'' where
  dialect := h'.dialect.trans h.dialect
  source := h'.source.trans h.source
  finished := h'.finished.trans h.finished
  errors := h'.errors.trans h.errors
  location := by rw [h'.location, h.location, Location.past_append]
  line := h'.line
  lines := h'.lines

structure Follows (c next : Cursor) : Prop where
  rest : next.rest = c.later
  stopsAt : c.StopsAt (c.line.ending.chars ++ next.line.body) next.line.ending (Text.lines next.later)
    next.advanceToLineEnd

theorem follows_of_consumeNewline {next : Cursor} (h : c.line.body = []) (hnext : c.consumeNewline = some next) :
    c.Follows next := by
  rw [consumeNewline_eq h] at hnext
  split at hnext
  case isTrue => cases hnext
  case isFalse =>
    cases hnext
    refine ⟨rfl, ?_⟩
    obtain ⟨hdialect, hsource, hfinished, herrors, hlocation, hline, hlines⟩ := stopsAt_advanceToLineEnd
      { c with
        before := some '\n'
        rest := c.later
        location := c.location.past c.line.ending.chars
        atLineStart := true
        tagLine := false }
    exact ⟨hdialect, hsource, hfinished, herrors, by rw [hlocation, Location.past_append], hline, hlines⟩

theorem Follows.lines_eq_cons {next : Cursor} (h : c.Follows next) (hne : c.later ≠ []) :
    Text.lines c.later = next.line :: Text.lines next.later := by
  rw [← h.rest] at hne ⊢
  exact Text.lines_eq_cons hne

theorem later_eq_nil (h : c.line.body = []) (hnewline : c.consumeNewline = none) : c.later = [] := by
  rw [consumeNewline_eq h] at hnewline
  split at hnewline
  case isTrue hmissing => exact Text.firstLine_eq_nil_of_missing hmissing
  case isFalse => cases hnewline

/-- The lines of a doc string are those before the first that closes it. -/
theorem docStringLines?_spec (delimiter : Delimiter) (indent : Nat) (lines : List (List Char)) (c : Cursor)
    (h : c.line.body = []) :
    (Scan.cut? (fun l => delimiter.closes l.body) (Text.lines c.later) = none ∧
        (c.docStringLines? delimiter indent lines).1 = none) ∨
      ∃ inner closer rest,
        Scan.cut? (fun l => delimiter.closes l.body) (Text.lines c.later) = some (inner, closer, rest) ∧
        (c.docStringLines? delimiter indent lines).1 = some (lines ++ inner.map fun l =>
          Delimiter.stripIndent indent (Text.dropEndWhile (· = '\r') l.body)) ∧
        c.StopsAt (c.line.ending.chars ++ inner.flatMap Text.Line.chars ++ closer.body) closer.ending rest
          (c.docStringLines? delimiter indent lines).2 := by
  -- Each turn takes one line off both: the lines still to come and the characters still to read.
  fun_induction docStringLines? delimiter indent lines c with
  | case1 lines c hnewline =>
    rw [later_eq_nil h hnewline]
    exact .inl ⟨rfl, rfl⟩
  | case2 lines c next hnewline hlt hcloses =>
    have hnext := follows_of_consumeNewline h hnewline
    rw [lineRemainder_eq, delimiter.closes_dropEndWhile_cr] at hcloses
    have hne : c.later ≠ [] := by
      intro hnil
      unfold line at hcloses
      rw [hnext.rest, hnil] at hcloses
      cases delimiter <;> cases hcloses
    rw [hnext.lines_eq_cons hne]
    refine .inr ⟨[], next.line, Text.lines next.later, if_pos hcloses, ?_, ?_⟩
    · rw [List.map_nil, List.append_nil]
    · rw [List.flatMap_nil, List.append_nil]
      exact hnext.stopsAt
  | case3 lines c next hnewline hlt hcloses ih =>
    have hnext := follows_of_consumeNewline h hnewline
    have hmid := hnext.stopsAt
    rw [lineRemainder_eq, delimiter.closes_dropEndWhile_cr] at hcloses
    specialize ih (by rw [hmid.line])
    rw [hmid.lines, hmid.line, lineRemainder_eq] at ih
    rw [lineRemainder_eq]
    by_cases hne : c.later = []
    · -- The source ends behind the line end, so that no line follows.
      have hlater : next.later = [] := by
        unfold later
        rw [hnext.rest, hne]
        rfl
      rw [hlater] at ih
      rw [hne]
      rcases ih with ⟨-, hnone⟩ | ⟨inner, closer, rest, hcut, -⟩
      · exact .inl ⟨rfl, hnone⟩
      · cases hcut
    · rw [hnext.lines_eq_cons hne, Scan.cut?, if_neg hcloses]
      rcases ih with ⟨hcut, hnone⟩ | ⟨inner, closer, rest, hcut, hlines, hstops⟩
      · exact .inl ⟨by rw [hcut]; rfl, hnone⟩
      · refine .inr ⟨next.line :: inner, closer, rest, by rw [hcut]; rfl, ?_, ?_⟩
        · rw [hlines, List.append_assoc]
          rfl
        · have hall := hmid.trans hstops
          rw [List.flatMap_cons, Text.Line.chars]
          simpa only [List.append_assoc] using hall

def docString (c : Cursor) (f : Scan.Fence) (content span : List Char) : Token :=
  ⟨.docString, String.ofList content, c.location, (c.location.past span).offset, f.contentType⟩

/-- A doc string takes the lines up to the one that closes it, or its first line with a fault. -/
theorem lexDocString_spec {f : Scan.Fence} (h : c.line.body = f.openingSpan) :
    (Scan.cut? (fun l => f.delimiter.closes l.body) (Text.lines c.later) = none ∧
        (c.lexDocString f.delimiter).1 = c.docString f [] f.openingSpan ∧
        ∃ c', c.StopsAt f.openingSpan c.line.ending (Text.lines c.later) c' ∧ c'.atLineStart = false ∧
          (c.lexDocString f.delimiter).2 = c'.error .unterminatedDocString c.location) ∨
      ∃ inner closer rest,
        Scan.cut? (fun l => f.delimiter.closes l.body) (Text.lines c.later) = some (inner, closer, rest) ∧
        (c.lexDocString f.delimiter).1 = c.docString f (f.delimiter.content (c.location.column - 1) inner)
          (f.openingSpan ++ c.line.ending.chars ++ inner.flatMap Text.Line.chars ++ closer.body) ∧
        c.StopsAt (f.openingSpan ++ c.line.ending.chars ++ inner.flatMap Text.Line.chars ++ closer.body)
          closer.ending rest (c.lexDocString f.delimiter).2 ∧
        (c.lexDocString f.delimiter).2.atLineStart = false := by
  obtain ⟨delimiter, indent, annotation⟩ := f
  have hbody : c.line.body = delimiter.chars ++ annotation := h
  have hannotation := (firstLine_advanceOver hbody).1
  have hresume : (c.advanceOver delimiter.chars).advanceToLineEnd = c.advanceToLineEnd := by
    rw [advanceToLineEnd_eq, advanceToLineEnd_eq, hannotation, hbody, advanceOver_append]
  have hopening := c.stopsAt_advanceToLineEnd
  have hlines := docStringLines?_spec delimiter (c.location.column - 1) [] c.advanceToLineEnd (by rw [hopening.line])
  have hback := restore_docStringLines? delimiter (c.location.column - 1) [] c.advanceToLineEnd c.advanceToLineEnd
  rw [hopening.lines, hopening.line] at hlines
  unfold lexDocString
  dsimp only
  rw [hresume, lineRemainder_eq, Text.trim_dropEndWhile_cr, hannotation]
  generalize c.advanceToLineEnd.docStringLines? delimiter (c.location.column - 1) [] = read at hlines hback ⊢
  obtain ⟨lines?, last⟩ := read
  -- Without a closing line the cursor goes back to the end of the opening one.
  rcases hlines with ⟨hcut, hnone⟩ | ⟨inner, closer, rest, hcut, hsome, hstops⟩
  · cases hnone
    refine .inl ⟨hcut, ?_, c.advanceToLineEnd.restore c.advanceToLineEnd, ?_, rfl, ?_⟩
    · show (⟨_, _, _, c.advanceToLineEnd.location.offset, _⟩ : Token) = _
      rw [hopening.location, h]
      rfl
    · rw [← h]
      exact ⟨hopening.dialect, hopening.source, hopening.finished, hopening.errors, hopening.location, hopening.line,
        hopening.lines⟩
    · exact congrArg (error · .unterminatedDocString c.location) hback
  · cases hsome
    have hall := hopening.trans hstops
    rw [h, ← List.append_assoc, ← List.append_assoc] at hall
    refine .inr ⟨inner, closer, rest, hcut, ?_, ?_, rfl⟩
    · show (⟨_, _, _, last.location.offset, _⟩ : Token) = _
      rw [hall.location]
      rfl
    · exact ⟨hall.dialect, hall.source, hall.finished, hall.errors, hall.location, hall.line, hall.lines⟩

/-! ## What a scan still yields -/

def behindLine (c : Cursor) : List Scanned :=
  Scan.ofEnding (c.location.past c.line.body) c.line.ending ++
    Scan.lines c.dialect ((c.location.past c.line.body).past c.line.ending.chars) true (Text.lines c.later)

def inLine (c : Cursor) (place : Place) : List Scanned :=
  Scan.ofBody c.dialect place c.quoteMayOpen c.location c.line.body ++ c.behindLine

/-- What a scan yields from where the cursor stands. -/
def scanned (c : Cursor) : List Scanned :=
  if c.atLineStart then Scan.lines c.dialect c.location c.quoteMayOpen (Text.lines c.rest) else c.inLine c.place

/-- A line starts without tags. -/
def Coherent (c : Cursor) : Prop := c.atLineStart → c.tagLine = false

theorem lines_rest (h : c.rest ≠ []) : Text.lines c.rest = c.line :: Text.lines c.later := Text.lines_eq_cons h

theorem scanned_of_rest_eq_nil (h : c.rest = []) :
    c.scanned = [.token ⟨.eof, "", c.location, c.location.offset, none⟩] := by
  unfold scanned inLine behindLine line later
  rw [h]
  split <;> simp [Text.lines, Text.firstLine, Scan.lines, Scan.ofBody_nil, Scan.ofEnding, Text.LineEnd.chars]

/-- A source that is used up is scanned as if one more line were empty. -/
theorem lines_line (c : Cursor) (d : Dialect) (loc : Location) (afterBlank : Bool) :
    Scan.lines d loc afterBlank (Text.lines c.rest) = Scan.lines d loc afterBlank (c.line :: Text.lines c.later) := by
  by_cases h : c.rest = []
  · unfold line later
    rw [h]
    simp [Text.lines, Text.firstLine, Scan.lines, Scan.line, Scan.fence?, Delimiter.opening?, Delimiter.chars,
      Text.dropWord?, Scan.ofBody_nil, Scan.ofEnding, Scan.advance, Text.Line.chars, Text.LineEnd.chars]
  · rw [lines_rest h]

/-- A line that opens no doc string is scanned from its start as from its inside. -/
theorem scanned_of_no_fence (h : c.atLineStart → Scan.fence? c.line = none) : c.scanned = c.inLine c.place := by
  unfold scanned
  by_cases hstart : c.atLineStart
  · have hplace : c.place = .first := if_pos hstart
    rw [if_pos hstart, lines_line, Scan.lines, hplace]
    unfold Scan.line inLine behindLine Scan.advance
    rw [h hstart]
    dsimp only
    rw [List.flatMap_nil, List.append_nil, Text.Line.chars, Location.past_append, List.append_assoc]
  · rw [if_neg hstart]

theorem StopsAt.scanned {c' : Cursor} {ending : Text.LineEnd} {ls : List Text.Line} (h : c.StopsAt as ending ls c')
    (hstart : c'.atLineStart = false) : c'.scanned = Scan.ofEnding (c.location.past as) ending ++
      Scan.lines c.dialect ((c.location.past as).past ending.chars) true ls := by
  unfold Cursor.scanned inLine behindLine
  rw [if_neg (by rw [hstart]; exact Bool.false_ne_true), h.line, h.lines, h.location, h.dialect, Scan.ofBody_nil]
  rfl

/-- The cursor has moved over faults and perhaps a token. -/
structure Moves (c : Cursor) (faults : List LexicalError) (t? : Option Token) (c' : Cursor) : Prop where
  dialect : c'.dialect = c.dialect
  source : c'.source = c.source
  finished : c'.finished = c.finished
  errors : c'.errors = c.errors ++ faults
  coherent : c.Coherent → c'.Coherent
  scanned : c.Coherent → c.scanned = faults.map .error ++ (t?.toList.map .token ++ c'.scanned)

/-- A doc string ends where its last line does. -/
theorem StopsAt.moves {c' : Cursor} {ending : Text.LineEnd} {ls : List Text.Line} {t : Token}
    (h : StopsAt { c with atLineStart := false } as ending ls c') (hinside : c'.atLineStart = false)
    (faults : List LexicalError)
    (hscanned : c.scanned = faults.map .error ++ .token t :: (Scan.ofEnding (c.location.past as) ending ++
      Scan.lines c.dialect ((c.location.past as).past ending.chars) true ls)) :
    c.Moves faults (some t) { c' with errors := c'.errors ++ faults } where
  dialect := h.dialect
  source := h.source
  finished := h.finished
  errors := congrArg (· ++ faults) h.errors
  coherent _ hstart := absurd (hinside.symm.trans hstart) Bool.false_ne_true
  scanned _ := by
    have hnext := h.scanned hinside
    rw [hscanned]
    exact congrArg (fun xs => _ ++ _ :: xs) hnext.symm

theorem Moves.trans {c' c'' : Cursor} {faults more : List LexicalError} {t? : Option Token}
    (h : c.Moves faults none c') (h' : c'.Moves more t? c'') : c.Moves (faults ++ more) t? c'' where
  dialect := h'.dialect.trans h.dialect
  source := h'.source.trans h.source
  finished := h'.finished.trans h.finished
  errors := by rw [h'.errors, h.errors, List.append_assoc]
  coherent hc := h'.coherent (h.coherent hc)
  scanned hc := by
    rw [h.scanned hc, h'.scanned (h.coherent hc), List.map_append, List.append_assoc]
    rfl

theorem exists_body_of_atBlank (h : c.atBlank) : ∃ x cs, c.line.body = x :: cs ∧ Scan.isGap x := by
  have hend : ¬ c.atLineEnd := by
    unfold atBlank at h
    unfold atLineEnd
    split at h
    case h_1 hrest | h_2 hrest => simp [hrest]
    case h_3 rest hrest =>
      rw [hrest]
      cases rest <;> simp_all
    case h_4 => cases h
  obtain ⟨x, cs, hbody⟩ := exists_body_of_not_atLineEnd hend
  refine ⟨x, cs, hbody, ?_⟩
  unfold atBlank at h
  rw [rest_of_body hbody] at h
  split at h
  case h_1 heq | h_2 heq | h_3 heq =>
    rw [(List.cons.inj heq).1]
    rfl
  case h_4 => cases h

theorem moves_bump (h : c.atBlank) : c.Moves [] none c.bump := by
  obtain ⟨x, cs, hbody, hx⟩ := exists_body_of_atBlank h
  have hbump : c.bump = _ := advanceOver_body (show c.line.body = [x] ++ cs from hbody)
  have hopen : c.bump.quoteMayOpen = true := by
    rw [quoteMayOpen_bump hbody]
    exact (Scan.isBlank_of_isGap hx).1
  have hlocation : c.bump.location = c.location.next x := by rw [hbump]; rfl
  have hdialect : c.bump.dialect = c.dialect := by rw [hbump]
  have hstart : c.bump.atLineStart = c.atLineStart := by rw [hbump]
  have htagLine : c.bump.tagLine = c.tagLine := by rw [hbump]
  refine ⟨hdialect, by rw [hbump], by rw [hbump], by rw [hbump]; exact (List.append_nil _).symm, ?_, fun _ => ?_⟩
  · unfold Coherent
    rw [hstart, htagLine]
    exact id
  · show c.scanned = c.bump.scanned
    unfold scanned
    rw [hstart]
    split
    · have hline : c.line = ⟨x :: cs, c.line.ending⟩ := by rw [← hbody]
      rw [lines_line, lines_line, hopen, line_bump hbody, later_bump hbody, hdialect, hlocation, hline,
        Scan.lines_cons_gap _ _ _ hx]
    · unfold inLine behindLine place
      rw [hopen, line_bump hbody, later_bump hbody, hdialect, hlocation, hstart, htagLine, hbody,
        Scan.ofBody_cons_gap _ _ _ _ hx]
      rfl

theorem moves_skipBlanks (c : Cursor) : c.Moves [] none c.skipBlanks := by
  fun_induction skipBlanks c with
  | case1 c h hlt ih => exact (moves_bump h).trans ih
  | case2 c h => exact ⟨rfl, rfl, rfl, (List.append_nil _).symm, id, fun _ => rfl⟩

theorem moves_consumeNewline {after : Cursor} (h : c.consumeNewline = some after) :
    c.Moves [] (some (after.token .newline ['\n'] c)) after := by
  have hbody : c.line.body = [] := by
    rw [← atLineEnd_iff]
    unfold consumeNewline at h
    unfold atLineEnd
    split at h
    case h_1 hrest | h_2 hrest =>
      rw [hrest]
      rfl
    case h_3 => cases h
  have hscanned : c.scanned = c.inLine c.place := by
    apply scanned_of_no_fence
    intro _
    unfold Scan.fence?
    rw [hbody]
    rfl
  rw [consumeNewline_eq hbody] at h
  split at h
  case isTrue => cases h
  case isFalse hending =>
    cases h
    refine ⟨rfl, rfl, rfl, (List.append_nil _).symm, fun _ _ => rfl, fun _ => ?_⟩
    rw [hscanned]
    unfold inLine behindLine
    rw [hbody, Scan.ofBody_nil]
    cases hcase : c.line.ending with
    | missing => exact absurd hcase hending
    | lf => rfl
    | crlf => rfl

section
variable {start : Cursor} {lx : Lexeme} {read : Option Token × Cursor} (h : start.Reads lx read)
include h

theorem Reads.ofLexeme : Scan.ofLexeme start.location lx =
    (lx.fault.map fun fault => (⟨fault, start.location⟩ : LexicalError)).toList.map .error ++
      read.1.toList.map .token := by
  rw [h.token]
  unfold Scan.ofLexeme
  cases lx.fault <;> cases lx.token <;> rfl

variable (hbody : start.line.body = lx.span ++ lx.slack ++ lx.rest)
include hbody

theorem Reads.frame : read.2.dialect = start.dialect ∧ read.2.source = start.source ∧
    read.2.finished = start.finished ∧ read.2.atLineStart = start.atLineStart ∧ read.2.tagLine = start.tagLine := by
  rw [h.cursor, advanceOver_body hbody]
  exact ⟨rfl, rfl, rfl, rfl, rfl⟩

/-- The rest of the line is scanned behind the lexeme. -/
theorem Reads.inLine (hne : lx.span ++ lx.slack ≠ []) (place : Place) :
    Scan.ofBody start.dialect place ((lx.span ++ lx.slack).getLast?.all Text.isBlank)
        (start.location.past (lx.span ++ lx.slack)) lx.rest ++ start.behindLine = read.2.inLine place := by
  obtain ⟨hline, hlater⟩ := firstLine_advanceOver hbody
  have hopen : read.2.quoteMayOpen = (lx.span ++ lx.slack).getLast?.all Text.isBlank := by
    unfold quoteMayOpen
    rw [h.cursor, advanceOver_body hbody]
    dsimp only
    rw [List.getLast?_eq_some_getLast hne]
    rfl
  have hlocation : read.2.location = start.location.past (lx.span ++ lx.slack) := by
    rw [h.cursor, advanceOver_body hbody]
  have hread : read.2.line = ⟨lx.rest, start.line.ending⟩ ∧ read.2.later = start.later := by
    rw [h.cursor]
    exact ⟨hline, hlater⟩
  unfold Cursor.inLine behindLine
  rw [hopen, hlocation, hread.1, hread.2, (h.frame hbody).1, hbody,
    start.location.past_append (lx.span ++ lx.slack) lx.rest]

end

theorem Coherent.next_place (h : c.Coherent) (x : Char) :
    c.place.next x = if c.tagLine || (c.atLineStart && x = '@') then .tags else .inside := by
  unfold place
  by_cases hstart : c.atLineStart
  · rw [if_pos hstart, h hstart, hstart, Bool.true_and, Bool.false_or]
    by_cases hat : x = '@' <;> simp [Place.next, hat]
  · rw [if_neg hstart, Bool.eq_false_iff.2 hstart, Bool.false_and, Bool.or_false]
    split <;> rfl

theorem dropWhile_isGap (hx : Scan.isGap x = false) : (x :: cs).dropWhile Scan.isGap = x :: cs :=
  List.dropWhile_cons_of_neg (by simp [hx])

theorem inLine_of_body (h : c.line.body = x :: cs) (hx : Scan.isGap x = false) (place : Place) {lx : Lexeme}
    (hlx : Lexeme.take c.dialect place c.quoteMayOpen x cs = lx) :
    c.inLine place = Scan.ofLexeme c.location lx ++
      (Scan.ofBody c.dialect (place.next x) ((lx.span ++ lx.slack).getLast?.all Text.isBlank)
          (c.location.past (lx.span ++ lx.slack)) lx.rest ++ c.behindLine) := by
  have hgap : (x :: cs).takeWhile Scan.isGap = [] := List.takeWhile_cons_of_neg (by simp [hx])
  unfold inLine
  rw [h, Scan.ofBody_of_dropWhile_eq_cons (dropWhile_isGap hx), hgap]
  dsimp only
  rw [List.isEmpty_nil, Bool.not_true, Bool.or_false, hlx, List.append_assoc]
  rfl

/-- Where no doc string is opened, the cursor moves over what a rule takes of the line. -/
theorem moves_of_lexeme (h : c.line.body = x :: cs) (hx : Scan.isGap x = false)
    (hopening : c.atLineStart → Delimiter.opening? (x :: cs) = none) :
    ∃ faults, c.Moves faults (c.lexHere x).1 (c.lexHere x).2 := by
  have hread := reads_lexHere h hopening
  have htakes := Lexeme.takes_take c.dialect c.place c.quoteMayOpen x cs
  have hscanned : c.scanned = c.inLine c.place := by
    apply scanned_of_no_fence
    intro hstart
    unfold Scan.fence?
    rw [h, dropWhile_isGap hx, hopening hstart]
    rfl
  rw [inLine_of_body h hx c.place rfl] at hscanned
  generalize Lexeme.take c.dialect c.place c.quoteMayOpen x cs = lx at hread htakes hscanned
  have hbody := h.trans htakes.append_rest.symm
  obtain ⟨hdialect, hsource, hfinished, hline, htags⟩ := hread.frame hbody
  refine ⟨(lx.fault.map fun fault => ⟨fault, c.location⟩).toList, hdialect, hsource, hfinished, ?_, ?_, fun hc => ?_⟩
  · rw [hread.cursor]
  · exact fun _ hstart => absurd (hline.symm.trans hstart) Bool.false_ne_true
  · have hnext : (c.lexHere x).2.scanned = (c.lexHere x).2.inLine (c.place.next x) := by
      rw [hc.next_place]
      unfold scanned place
      rw [hline, htags]
      rfl
    have hrest := hread.inLine hbody htakes.ne_nil (c.place.next x)
    have hlexeme : Scan.ofLexeme c.location lx = _ := hread.ofLexeme
    rw [hscanned, hnext, ← hrest, hlexeme, List.append_assoc]
    rfl

section
variable {delimiter : Delimiter} {behind : List Char}
  (hopening : Delimiter.opening? (x :: cs) = some (delimiter, behind))
include hopening

theorem lexHere_of_opening (h : c.line.body = x :: cs) (hstart : c.atLineStart) : c.lexHere x =
    (some (lexDocString delimiter { c with atLineStart := false }).1,
      (lexDocString delimiter { c with atLineStart := false }).2) := by
  have hmark : x = delimiter.mark := (List.cons.inj (Delimiter.eq_append_of_opening? hopening)).1
  have hrest := opening?_rest { c with atLineStart := false }
  rw [show Delimiter.opening? (line { c with atLineStart := false }).body = _ from h ▸ hopening] at hrest
  unfold lexHere
  rw [if_pos hstart]
  unfold lexLineStart
  split
  case h_1 | h_2 | h_3 => cases delimiter <;> cases hmark
  case h_4 =>
    rw [hrest]
    rfl

/-- Where a doc string is opened, the cursor moves over the lines that it takes. -/
theorem moves_docString (h : c.line.body = x :: cs) (hx : Scan.isGap x = false) (hstart : c.atLineStart) :
    ∃ faults, c.Moves faults (c.lexHere x).1 (c.lexHere x).2 := by
  let f : Scan.Fence := ⟨delimiter, [], behind⟩
  have hbody : c.line.body = f.openingSpan := h.trans (Delimiter.eq_append_of_opening? hopening)
  have hfence : Scan.fence? c.line = some f := by
    have hgap : (x :: cs).takeWhile Scan.isGap = [] := List.takeWhile_cons_of_neg (by simp [hx])
    unfold Scan.fence?
    rw [h, dropWhile_isGap hx, hopening, hgap]
    rfl
  have hscanned : c.scanned = Scan.lines c.dialect c.location c.quoteMayOpen (c.line :: Text.lines c.later) := by
    unfold scanned
    rw [if_pos hstart, lines_line]
  rw [lexHere_of_opening hopening h hstart]
  obtain ⟨hcut, htoken, c', hstops, hinside, hcursor⟩ | ⟨inner, closer, rest, hcut, htoken, hstops, hinside⟩ :=
    lexDocString_spec (c := { c with atLineStart := false }) (f := f) hbody
  · change Scan.cut? _ (Text.lines c.later) = _ at hcut
    rw [Scan.lines_of_unclosed hfence rfl hcut] at hscanned
    rw [htoken, hcursor]
    exact ⟨[⟨.unterminatedDocString, c.location⟩], hstops.moves hinside _ hscanned⟩
  · change Scan.cut? _ (Text.lines c.later) = _ at hcut
    rw [Scan.lines_of_closed hfence rfl hcut] at hscanned
    have hmoves := hstops.moves hinside [] hscanned
    rw [List.append_nil] at hmoves
    rw [htoken]
    exact ⟨[], hmoves⟩

end

theorem moves_lexHere (h : c.line.body = x :: cs) (hx : Scan.isGap x = false) :
    ∃ faults, c.Moves faults (c.lexHere x).1 (c.lexHere x).2 := by
  by_cases hstart : c.atLineStart
  · cases hopening : Delimiter.opening? (x :: cs) with
    | none => exact moves_of_lexeme h hx fun _ => hopening
    | some found => exact moves_docString hopening h hx hstart
  · exact moves_of_lexeme h hx fun hstart' => absurd hstart' hstart

theorem not_atBlank_skipBlanks (c : Cursor) : ¬ c.skipBlanks.atBlank := by
  fun_induction skipBlanks c with
  | case1 c h hlt ih => exact ih
  | case2 c h => exact h

/-- Where no blank and no line end is next, the line goes on. -/
theorem exists_body_of_not_atBlank {rest : List Char} (hblank : ¬ c.atBlank) (hrest : c.rest = x :: rest)
    (hnewline : c.consumeNewline = none) : ∃ cs, c.line.body = x :: cs ∧ Scan.isGap x = false := by
  have hend : ¬ c.atLineEnd := by
    intro hend
    have hbody := atLineEnd_iff.1 hend
    have hempty := c.rest_eq
    rw [consumeNewline_eq hbody] at hnewline
    rw [hbody, later_eq_nil hbody (consumeNewline_eq hbody ▸ hnewline)] at hempty
    split at hnewline
    case isTrue hmissing =>
      rw [hrest, hmissing] at hempty
      cases hempty
    case isFalse => cases hnewline
  obtain ⟨cs, hbody⟩ := exists_body_of_head? hend (x := x) (by rw [hrest]; rfl)
  refine ⟨cs, hbody, ?_⟩
  unfold atBlank at hblank
  unfold atLineEnd at hend
  rw [hrest] at hblank hend
  by_contra hgap
  rw [Bool.not_eq_false, Scan.isGap, Bool.or_eq_true, Bool.or_eq_true, decide_eq_true_eq, decide_eq_true_eq,
    decide_eq_true_eq] at hgap
  rcases hgap with (rfl | rfl) | rfl
  · exact hblank rfl
  · exact hblank rfl
  · -- A carriage return that is no blank belongs to a line end.
    cases rest with
    | nil => exact hblank rfl
    | cons y rest =>
      by_cases hy : y = '\n'
      · subst hy
        exact hend rfl
      · exact hblank (by simpa using hy)

/-- A token is handed out behind the faults on the way to it, and the end of the source is never passed. -/
theorem moves_nextToken (c : Cursor) : ∃ faults, c.Moves faults (some c.nextToken.1) c.nextToken.2 ∨
    c.Moves faults none c.nextToken.2 ∧ c.nextToken.2.scanned = [.token c.nextToken.1] := by
  fun_induction nextToken c with
  | case1 c start hrest => exact ⟨[], .inr ⟨c.moves_skipBlanks, scanned_of_rest_eq_nil hrest⟩⟩
  | case2 c start x rest hrest after hafter =>
    exact ⟨[], .inl (c.moves_skipBlanks.trans (moves_consumeNewline hafter))⟩
  | case3 c start x rest hrest hnewline read hlt t ht =>
    obtain ⟨cs, hbody, hx⟩ := exists_body_of_not_atBlank c.not_atBlank_skipBlanks hrest hnewline
    obtain ⟨faults, hmoves⟩ := moves_lexHere hbody hx
    have hall := c.moves_skipBlanks.trans hmoves
    rw [show (c.skipBlanks.lexHere x).1 = some t from ht] at hall
    exact ⟨_, .inl hall⟩
  | case4 c start x rest hrest hnewline read hlt hnone ih =>
    obtain ⟨cs, hbody, hx⟩ := exists_body_of_not_atBlank c.not_atBlank_skipBlanks hrest hnewline
    obtain ⟨faults, hmoves⟩ := moves_lexHere hbody hx
    have hall := c.moves_skipBlanks.trans hmoves
    rw [show (c.skipBlanks.lexHere x).1 = none from hnone] at hall
    obtain ⟨more, hmore | ⟨hmore, hend⟩⟩ := ih
    · exact ⟨_, .inl (hall.trans hmore)⟩
    · exact ⟨_, .inr ⟨hall.trans hmore, hend⟩⟩

end Cursor

end Gherkin
