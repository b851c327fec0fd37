import Gherkin.Proofs.Printing.Scanning
import Gherkin.Proofs.Token.Concatenation

/-!
# Comment lines in a source

A comment line that is put in where a line starts, outside of doc strings, yields a comment and a line end.
What stands before it is scanned as it is without it, and what stands behind it as well, one line further on.
-/

namespace Gherkin

namespace Text

/-- A line of spaces and tabs, a `#` and any text. -/
def IsCommentLine (cs : List Char) : Prop :=
  ∃ indent text, cs = indent ++ '#' :: (text ++ ['\n']) ∧ (∀ c ∈ indent, c = ' ' ∨ c = '\t') ∧
    '\n' ∉ text ∧ '\r' ∉ text

structure Line.IsComment (l : Line) : Prop where
  exists_body : ∃ indent text, l.body = indent ++ '#' :: text ∧ ∀ c ∈ indent, c = ' ' ∨ c = '\t'
  single : '\n' ∉ l.body
  ending : l.ending = .lf

theorem IsCommentLine.exists_line {cs : List Char} (h : IsCommentLine cs) :
    ∃ l : Line, l.IsComment ∧ l.chars = cs ∧ ∀ rest, lines (cs ++ rest) = l :: lines rest := by
  obtain ⟨indent, text, rfl, hindent, hlf, hcr⟩ := h
  have hbody : ∀ c ∈ indent ++ '#' :: text, c ≠ '\n' ∧ c ≠ '\r' := by
    intro c hc
    rcases List.mem_append.1 hc with hc | hc
    · rcases hindent c hc with rfl | rfl <;> decide
    · rcases List.mem_cons.1 hc with rfl | hc
      · decide
      · exact ⟨fun h => hlf (h ▸ hc), fun h => hcr (h ▸ hc)⟩
  have hlf' : '\n' ∉ indent ++ '#' :: text := fun h => (hbody _ h).1 rfl
  have hcr' : (indent ++ '#' :: text).getLast? ≠ some '\r' := fun h =>
    (hbody _ (List.mem_of_getLast? h)).2 rfl
  refine ⟨⟨indent ++ '#' :: text, .lf⟩, ⟨⟨indent, text, rfl, hindent⟩, hlf', rfl⟩, ?_, fun rest => ?_⟩
  · simp [Line.chars, LineEnd.chars]
  · rw [← lines_append_lf hlf' hcr']
    simp

theorem IsCommentLine.head?_ne {cs : List Char} (h : IsCommentLine cs) (rest : List Char) :
    (cs ++ rest).head? ≠ some Scan.byteOrderMark ∧ (cs ++ rest).head? ≠ some '\'' := by
  obtain ⟨indent, text, rfl, hindent, -⟩ := h
  cases indent with
  | nil => simp [Scan.byteOrderMark]
  | cons c indent =>
    rcases hindent c List.mem_cons_self with rfl | rfl
    · simp [Scan.byteOrderMark]
    · simp [Scan.byteOrderMark]

end Text

/-- The whole of a comment line goes one line further. -/
theorem Location.past_of_isComment {l : Text.Line} (h : l.IsComment) {loc : Location}
    (hloc : loc.column = 1) : loc.past l.chars = loc.moved 1 (Text.byteLength l.chars) := by
  have hline : (loc.past l.body).line = loc.line := by
    rw [line_past, List.count_eq_zero.2 h.single, Nat.add_zero]
  have hbytes : Text.byteLength l.chars = Text.byteLength l.body + 1 := by
    rw [Text.Line.chars, h.ending, Text.byteLength_append]
    rfl
  rw [hbytes, Text.Line.chars, h.ending, past_append]
  show (⟨(loc.past l.body).line + 1, 1, (loc.past l.body).offset + 1⟩ : Location) = _
  rw [hline, offset_past, moved, hloc, Nat.add_assoc]

/-- The token is a doc string, and byte offset `n` is inside of it. -/
structure Token.Encloses (t : Token) (n : Nat) : Prop where
  docString : t.kind = .docString
  starts : t.location.offset < n
  stops : n < t.stop

namespace Scan

section
variable {l : Text.Line} (h : l.IsComment)
include h

theorem fence?_of_isComment : fence? l = none := by
  obtain ⟨indent, text, hbody, hindent⟩ := h.exists_body
  refine fence?_eq_none hbody (fun c hc => ?_) (fun c hc => ?_)
    (Delimiter.opening?_cons_eq_none (by decide) (by decide) text)
  · rcases hindent c hc with rfl | rfl <;> decide
  · obtain rfl : '#' = c := by simpa using hc
    decide

/-- A comment closes no doc string. -/
theorem not_closes_of_isComment (delimiter : Delimiter) : ¬ delimiter.closes l.body := by
  obtain ⟨indent, text, hbody, hindent⟩ := h.exists_body
  have hblank : ∀ c ∈ indent, Text.isBlank c := by
    intro c hc
    rcases hindent c hc with rfl | rfl <;> decide
  have htrim : Text.trimStart l.body = '#' :: text := by
    rw [hbody, Text.trimStart, List.dropWhile_append_of_pos hblank]
    exact Text.trimStart_eq_self (by decide)
  unfold Delimiter.closes
  rw [htrim]
  cases delimiter <;> simp [Delimiter.chars, Delimiter.mark, Text.dropWord?]

theorem exists_lines_of_isComment (d : Dialect) (loc : Location) (afterBlank : Bool)
    (ls : List Text.Line) : ∃ c n, c.kind = .comment ∧ n.kind = .newline ∧
      lines d loc afterBlank (l :: ls) = .token c :: .token n :: lines d (loc.past l.chars) true ls := by
  obtain ⟨indent, text, hbody, hindent⟩ := h.exists_body
  have hgap : ∀ c ∈ indent, isGap c := by
    intro c hc
    rcases hindent c hc with rfl | rfl <;> decide
  obtain ⟨c, hcomment, hc⟩ : ∃ c : Token,
      ofBody d .first afterBlank loc l.body = [.token c] ∧ c.kind = .comment := by
    rw [hbody, ofBody_append_cons hgap (by decide)]
    dsimp only
    rw [show Lexeme.take d .first (afterBlank || !indent.isEmpty) '#' text = Lexeme.comment text from rfl]
    exact ⟨_, congrArg _ (ofBody_nil ..), rfl⟩
  obtain ⟨n, hending, hn⟩ := exists_ofEnding (h.ending ▸ by decide : l.ending ≠ .missing) (loc.past l.body)
  refine ⟨c, n, hc, hn, ?_⟩
  rw [lines, line, fence?_of_isComment h]
  dsimp only
  rw [hcomment, hending, advance, List.flatMap_nil, List.append_nil]
  rfl

end

/-! ## Doc strings over a boundary -/

variable {d : Dialect}

/-- A doc string that more lines close goes over the boundary before them. -/
theorem exists_docString_of_staysOpen {loc : Location} {afterBlank : Bool} {l : Text.Line}
    {ls more : List Text.Line} (hopen : StaysOpen l ls) (hclosed : ¬ StaysOpen l (ls ++ more)) :
    ∃ t, .token t ∈ (line d loc afterBlank l (ls ++ more)).results ∧
      t.Encloses (loc.past ((l :: ls).flatMap Text.Line.chars)).offset := by
  obtain ⟨f, hfence, hnone⟩ := hopen
  cases hcut : cut? (fun l => f.delimiter.closes l.body) (ls ++ more) with
  | none => exact absurd ⟨f, hfence, hcut⟩ hclosed
  | some found =>
    obtain ⟨inner, closer, rest⟩ := found
    -- What the doc string takes goes over `ls` and ends with a delimiter behind it.
    obtain ⟨mid, rfl⟩ := prefix_of_cut? hnone hcut
    have hopening : 0 < Text.byteLength f.openingSpan :=
      byteLength_pos (by cases f.delimiter <;> simp [Fence.openingSpan, Delimiter.chars])
    have hcloser : 0 < Text.byteLength closer.body := by
      refine byteLength_pos fun hnil => ?_
      have hcloses := (cut?_spec hcut).1
      rw [hnil] at hcloses
      revert hcloses
      cases f.delimiter <;> decide
    unfold line
    rw [hfence]
    dsimp only
    rw [hcut]
    have hbody := (body_eq_of_fence? hfence).1
    refine ⟨_, List.mem_cons_self, rfl, ?_, ?_⟩
    · show (loc.past f.indent).offset < _
      rw [Location.offset_past, Location.offset_past, List.flatMap_cons, Text.Line.chars, hbody]
      simp only [Text.byteLength_append]
      omega
    · show _ < ((loc.past f.indent).past _).offset
      rw [← Location.past_append, Location.offset_past, Location.offset_past, List.flatMap_cons,
        Text.Line.chars, hbody]
      simp only [Text.byteLength_append, List.flatMap_append]
      omega

/-- Comments close no doc string that is open before them. -/
theorem StaysOpen.append_comments {l : Text.Line} {ls added more : List Text.Line}
    (hadded : ∀ c ∈ added, c.IsComment) (h : StaysOpen l (ls ++ more)) :
    StaysOpen l (ls ++ (added ++ more)) := by
  obtain ⟨f, hfence, hnone⟩ := h
  rw [cut?_eq_none_iff, List.forall_mem_append] at hnone
  refine ⟨f, hfence, cut?_eq_none_iff.2 ?_⟩
  rw [List.forall_mem_append, List.forall_mem_append]
  exact ⟨hnone.1, fun c hc => not_closes_of_isComment (hadded c hc) f.delimiter, hnone.2⟩

/-- Lines are scanned the same with comment lines behind them, as long as no doc string goes over their end
to a delimiter among the lines that follow. -/
theorem exists_lines_split {loc : Location} {afterBlank : Bool} {ls more : List Text.Line}
    (hstart : ls ≠ [] ∨ afterBlank = true)
    (h : ∀ t, .token t ∈ lines d loc afterBlank (ls ++ more) →
      ¬ t.Encloses (loc.past (ls.flatMap Text.Line.chars)).offset) :
    ∃ xs finish, finish = loc.past (ls.flatMap Text.Line.chars) ∧
      lines d loc afterBlank ls = xs ++ [.token ⟨.eof, "", finish, finish.offset, none⟩] ∧
      ∀ added, (∀ c ∈ added, c.IsComment) →
        lines d loc afterBlank (ls ++ (added ++ more)) = xs ++ lines d finish true (added ++ more) := by
  fun_induction lines d loc afterBlank ls with
  | case1 loc afterBlank =>
    obtain rfl : afterBlank = true := hstart.resolve_left (by simp)
    exact ⟨[], loc, rfl, rfl, fun _ _ => rfl⟩
  | case2 loc afterBlank l ls step fewer ih =>
    -- A doc string that more lines close would have the boundary inside of it.
    have hkeeps : StaysOpen l ls → StaysOpen l (ls ++ more) := by
      intro hopen
      by_contra hclosed
      obtain ⟨t, ht, hencloses⟩ := exists_docString_of_staysOpen hopen hclosed
      refine h t ?_ hencloses
      rw [List.cons_append, lines]
      exact List.mem_append_left _ ht
    have hplace := past_advance d loc afterBlank l ls
    obtain ⟨xs, finish, hfinish, hlines, hmore⟩ := ih (Or.inr rfl) fun t ht => by
      rw [hplace]
      refine h t ?_
      rw [List.cons_append, lines, line_append hkeeps]
      exact List.mem_append_right _ ht
    refine ⟨step.results ++ xs, finish, hfinish.trans hplace, by rw [hlines, List.append_assoc],
      fun added hadded => ?_⟩
    rw [List.cons_append, lines, line_append fun hopen => (hkeeps hopen).append_comments hadded]
    dsimp only
    rw [hmore added hadded, List.append_assoc]

/-! ## The start of a line -/

/-- What stands before a line tells only whether a single quote that starts it opens a quoted string. -/
theorem take_first_of_ne {c : Char} (hc : c ≠ '\'') (cs : List Char) (afterBlank : Bool) :
    Lexeme.take d .first afterBlank c cs = Lexeme.take d .first true c cs := by
  have hinline : Lexeme.inline afterBlank c cs = Lexeme.inline true c cs := by
    unfold Lexeme.inline
    simp [hc]
  unfold Lexeme.take
  rw [hinline]

theorem ofBody_first_of_head?_ne {body : List Char} (h : body.head? ≠ some '\'') (loc : Location)
    (afterBlank : Bool) : ofBody d .first afterBlank loc body = ofBody d .first true loc body := by
  cases hdrop : body.dropWhile isGap with
  | nil => rw [ofBody_of_dropWhile_eq_nil hdrop, ofBody_of_dropWhile_eq_nil hdrop]
  | cons c cs =>
    have htake : Lexeme.take d .first (afterBlank || !(body.takeWhile isGap).isEmpty) c cs =
        Lexeme.take d .first true c cs := by
      -- Where a blank comes first, that blank stands before the first word.
      by_cases hgap : body.takeWhile isGap = []
      · have hbody : body.takeWhile isGap ++ body.dropWhile isGap = body :=
          List.takeWhile_append_dropWhile
        rw [hgap, hdrop, List.nil_append] at hbody
        rw [← hbody] at h
        exact take_first_of_ne (by simpa using h) cs _
      · have hsome : (body.takeWhile isGap).isEmpty = false := by simpa using hgap
        rw [hsome, Bool.not_false, Bool.or_true]
    rw [ofBody_of_dropWhile_eq_cons hdrop, ofBody_of_dropWhile_eq_cons hdrop]
    dsimp only
    rw [htake, Bool.true_or]

theorem lines_of_head?_ne {cs : List Char} (h : cs.head? ≠ some '\'') (loc : Location)
    (afterBlank : Bool) : lines d loc afterBlank (Text.lines cs) = lines d loc true (Text.lines cs) := by
  have hcs := Text.flatMap_chars_lines cs
  cases hlines : Text.lines cs with
  | nil => rw [lines, lines]
  | cons l ls =>
    have hbody : l.body.head? ≠ some '\'' := by
      intro hquote
      obtain ⟨rest, hrest⟩ := List.head?_eq_some_iff.1 hquote
      rw [hlines, List.flatMap_cons, Text.Line.chars, hrest] at hcs
      rw [← hcs] at h
      exact h rfl
    have hline : line d loc afterBlank l ls = line d loc true l ls := by
      unfold line
      rw [ofBody_first_of_head?_ne hbody]
    rw [lines, lines, hline]

/-- Between the two parts of a source a line starts: at its beginning, behind the mark that opens it, or
behind a line feed. -/
def StartsLine (before after : List Char) : Prop :=
  before = [] ∧ after.head? ≠ some byteOrderMark ∨ before = [byteOrderMark] ∨ before.getLast? = some '\n'

theorem past_opening_of_startsLine {before after : List Char} (h : StartsLine before after) :
    (opening before).1.past (opening before).2.2 = Location.start.behind before := by
  rcases h with ⟨rfl, -⟩ | rfl | h
  · rfl
  · decide
  · exact past_opening h

theorem nil_or_getLast?_of_startsLine {before after : List Char} (h : StartsLine before after) :
    (opening before).2.2 = [] ∨ before.getLast? = some '\n' := by
  rcases h with ⟨rfl, -⟩ | rfl | h
  · exact Or.inl rfl
  · exact Or.inl rfl
  · exact Or.inr h

/-- What follows goes on from the lines before it, at the start of a line. -/
theorem all_append_of_startsLine {before more : String} (h : StartsLine before.toList more.toList)
    (hquote : before.toList = [byteOrderMark] → more.toList.head? ≠ some '\'') :
    all d (before ++ more) = lines d (opening before.toList).1
      ((opening before.toList).2.1 || (opening before.toList).2.2.isEmpty)
      (Text.lines (opening before.toList).2.2 ++ Text.lines more.toList) := by
  rcases h with ⟨hnil, hmark⟩ | hmark | hlast
  · rw [all_eq, String.toList_append, hnil, List.nil_append, opening_of_head?_ne hmark]
    rfl
  · -- The mark stands before the first line and is no blank, which only a single quote tells.
    rw [all_append (by simp [hmark]) (Or.inl (by rw [hmark]; rfl)), hmark]
    exact lines_of_head?_ne (hquote hmark) _ _
  · have hrest := getLast?_opening hlast
    have hne : (opening before.toList).2.2.isEmpty = false := by
      rw [List.isEmpty_eq_false_iff]
      intro hnil
      rw [hnil] at hrest
      simp at hrest
    rw [all_append (by intro hnil; simp [hnil] at hlast) (Or.inr hrest), hne, Bool.or_false]

/-- What is scanned before the start of a line stays when comment lines come in there, and scanning goes on
from the start of the line. -/
theorem exists_all_around {before after : String} (hstart : StartsLine before.toList after.toList)
    (hinside : ∀ t ∈ tokens d (before ++ after), ¬ t.Encloses (Text.byteLength before.toList))
    (hquote : before.toList = [byteOrderMark] → after.toList.head? ≠ some '\'') :
    ∃ xs, let start := Location.start.behind before.toList
      all d before = xs ++ [.token ⟨.eof, "", start, start.offset, none⟩] ∧
      (xs = [] ∨ before.toList.getLast? = some '\n') ∧
      all d (before ++ after) = xs ++ lines d start true (Text.lines after.toList) ∧
      ∀ (more : String) (added : List Text.Line), StartsLine before.toList more.toList →
        (before.toList = [byteOrderMark] → more.toList.head? ≠ some '\'') →
        (∀ c ∈ added, c.IsComment) → Text.lines more.toList = added ++ Text.lines after.toList →
        all d (before ++ more) = xs ++ lines d start true (added ++ Text.lines after.toList) := by
  have hplace := past_opening_of_startsLine hstart
  have hbefore : all d (before ++ "") = _ :=
    all_append_of_startsLine (hstart.imp_left fun h => ⟨h.1, by simp⟩) (by simp)
  have hafter := all_append_of_startsLine (d := d) hstart hquote
  -- All sources go on from the lines `ls`.
  generalize hls : Text.lines (opening before.toList).2.2 = ls at hbefore hafter
  rw [← Text.flatMap_chars_lines (opening before.toList).2.2, hls] at hplace
  have hflag : ls ≠ [] ∨ ((opening before.toList).2.1 || (opening before.toList).2.2.isEmpty) = true := by
    by_cases hnil : (opening before.toList).2.2 = []
    · exact Or.inr (by simp [hnil])
    · exact Or.inl fun h => hnil (Text.lines_eq_nil_iff.1 (hls.trans h))
  obtain ⟨xs, finish, hfinish, hxs, hadded⟩ := exists_lines_split hflag fun t ht hencloses => by
    rw [← hafter] at ht
    refine hinside t (Scanned.mem_tokens_iff.2 ht) ?_
    rw [hplace] at hencloses
    simpa [Location.behind, Location.moved, Location.start] using hencloses
  rw [hplace] at hfinish
  subst hfinish
  refine ⟨xs, ?_, ?_, hafter.trans (hadded [] (by simp)), fun more added hmore hquote' hcomments hlines => ?_⟩
  · rw [String.append_empty] at hbefore
    rw [hbefore, ← hxs]
    exact congrArg _ (List.append_nil ls)
  · refine (nil_or_getLast?_of_startsLine hstart).imp_left fun hnil => ?_
    rw [← hls, hnil, Text.lines, lines] at hxs
    simpa using (congrArg List.length hxs).symm
  · rw [all_append_of_startsLine hmore hquote', hls, hlines]
    exact hadded added hcomments

/-- What a comment line at the start of a line of a source adds to the results.  The line must not be put
inside of a doc string, nor between the mark that opens the source and a single quote. -/
theorem exists_all_commented {before line after : String}
    (hstart : StartsLine before.toList after.toList) (hline : Text.IsCommentLine line.toList)
    (hinside : ∀ t ∈ tokens d (before ++ after), ¬ t.Encloses (Text.byteLength before.toList))
    (hquote : before.toList = [byteOrderMark] → after.toList.head? ≠ some '\'') :
    ∃ xs c n, c.kind = .comment ∧ n.kind = .newline ∧ (xs = [] ∨ before.toList.getLast? = some '\n') ∧
      let start := Location.start.behind before.toList
      let behind := lines d start true (Text.lines after.toList)
      all d before = xs ++ [.token ⟨.eof, "", start, start.offset, none⟩] ∧
      all d (before ++ after) = xs ++ behind ∧
      all d (before ++ line ++ after) =
        xs ++ .token c :: .token n :: behind.map (Scanned.moved 1 (Text.byteLength line.toList)) := by
  obtain ⟨l, hl, hchars, hlines⟩ := hline.exists_line
  obtain ⟨hmark, hapostrophe⟩ := hline.head?_ne after.toList
  have hmore := hlines after.toList
  rw [← String.toList_append] at hmark hapostrophe hmore
  obtain ⟨xs, hbefore, hnil, hafter, haround⟩ := exists_all_around hstart hinside hquote
  have hall := haround (line ++ after) [l] (hstart.imp_left fun h => ⟨h.1, hmark⟩) (fun _ => hapostrophe)
    (by simpa using hl) hmore
  obtain ⟨c, n, hc, hn, hcomment⟩ := exists_lines_of_isComment hl d (Location.start.behind before.toList)
    true (Text.lines after.toList)
  rw [Location.past_of_isComment hl rfl, hchars, lines_moved] at hcomment
  rw [List.singleton_append, hcomment, ← String.append_assoc] at hall
  exact ⟨xs, c, n, hc, hn, hnil, hbefore, hafter, hall⟩

end Scan

end Gherkin
