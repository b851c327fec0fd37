import Gherkin.Proofs.Outline.Placeholders
import Gherkin.Proofs.Text.FirstLine
import Gherkin.Proofs.Token.Decoding
import Gherkin.Token.Cursor

/-!
# What a cursor reads of a line

A cursor goes over a line character by character, and reads what the rules for lexemes take from the front of the
rest of the line.
-/

namespace Gherkin

theorem Placeholder.name?_append_lineEnd {cs tail : List Char} (htail : Text.AtLineEnd tail) :
    name? (cs ++ tail) = (name? cs).map fun found => (found.1, found.2 ++ tail) := by
  cases h : name? cs with
  | some found =>
    obtain ⟨name, rest⟩ := found
    obtain ⟨rfl, hname⟩ := name?_eq_some_iff.1 h
    rw [List.append_assoc, List.cons_append, name?_append hname]
    rfl
  | none =>
    cases hall : name? (cs ++ tail) with
    | none => rfl
    | some found =>
      obtain ⟨name, rest⟩ := found
      obtain ⟨heq, hname⟩ := name?_eq_some_iff.1 hall
      obtain ⟨more, rfl, -⟩ := Text.eq_append_of_atLineEnd heq htail hname.oneLine (by decide) (by decide)
      rw [name?_append hname] at h
      cases h

/-- Only carriage returns are missing, and they are blank. -/
theorem Text.exists_eq_dropEndWhile_cr (cs : List Char) : ∃ dropped, dropEndWhile (· = '\r') cs ++ dropped = cs ∧
    (∀ c ∈ dropped, c = '\r') ∧ ∀ c ∈ dropped, isBlank c := by
  have hall : ∀ c ∈ takeEndWhile (· = '\r') cs, c = '\r' := by
    intro c hc
    exact of_decide_eq_true (List.mem_takeWhile_imp (p := fun c => decide (c = '\r')) (List.mem_reverse.1 hc))
  refine ⟨_, dropEndWhile_append_takeEndWhile _ cs, hall, fun c hc => ?_⟩
  rw [hall c hc]
  decide

theorem Text.trimEnd_dropEndWhile_cr (cs : List Char) : trimEnd (dropEndWhile (· = '\r') cs) = trimEnd cs := by
  obtain ⟨dropped, hcs, -, hblank⟩ := exists_eq_dropEndWhile_cr cs
  have hkept := dropEndWhile_append_of_forall (dropEndWhile (· = '\r') cs) hblank
  rw [hcs] at hkept
  exact hkept.symm

theorem Text.trim_dropEndWhile_cr (cs : List Char) : trim (dropEndWhile (· = '\r') cs) = trim cs := by
  obtain ⟨dropped, hcs, -, hblank⟩ := exists_eq_dropEndWhile_cr cs
  have hkept := trim_append_of_forall (dropEndWhile (· = '\r') cs) hblank
  rw [hcs] at hkept
  exact hkept.symm

namespace Cursor

variable {c : Cursor} {x : Char} {as bs cs : List Char}

/-! ## Characters of a line -/

def line (c : Cursor) : Text.Line := (Text.firstLine c.rest).1

def later (c : Cursor) : List Char := (Text.firstLine c.rest).2

theorem rest_eq (c : Cursor) : c.rest = c.line.body ++ (c.line.ending.chars ++ c.later) :=
  (Text.chars_firstLine c.rest).symm

theorem atLineEnd_iff : c.atLineEnd ↔ c.line.body = [] := by
  unfold atLineEnd line
  generalize c.rest = cs
  fun_cases Text.firstLine cs with
  | case1 => exact iff_of_true rfl rfl
  | case2 => exact iff_of_true rfl rfl
  | case3 => exact iff_of_true rfl rfl
  | case4 x cs hlf hcrlf =>
    refine iff_of_false ?_ (List.cons_ne_nil _ _)
    split
    case h_1 h => cases h
    case h_2 h => exact absurd (List.cons.inj h).1 hlf
    case h_3 h => exact absurd (List.cons.inj h).2 (hcrlf _ (List.cons.inj h).1)
    case h_4 => exact Bool.false_ne_true

theorem advanceOver_eq {rest : List Char} (hrest : c.rest = cs ++ rest) (hcs : '\n' ∉ cs) : c.advanceOver cs =
    { c with before := cs.getLast?.or c.before, rest, location := c.location.past cs } := by
  induction cs generalizing c with
  | nil =>
    rw [List.nil_append] at hrest
    rw [← hrest]
    rfl
  | cons x cs ih =>
    have hbump : c.bump = { c with before := some x, rest := cs ++ rest, location := c.location.next x } := by
      have hx : x ≠ '\n' := fun h => hcs (h ▸ List.mem_cons_self)
      unfold bump Location.next
      rw [hrest, if_neg hx]
      rfl
    show c.bump.advanceOver cs = _
    rw [ih (by rw [hbump]) (fun h => hcs (List.mem_cons_of_mem x h)), hbump]
    cases cs <;> simp [List.getLast?_cons]

theorem advanceOver_append (c : Cursor) (as bs : List Char) :
    c.advanceOver (as ++ bs) = (c.advanceOver as).advanceOver bs := List.foldl_append

section
variable (h : c.line.body = as ++ bs)
include h

theorem advanceOver_body : c.advanceOver as =
    { c with
      before := as.getLast?.or c.before
      rest := bs ++ (c.line.ending.chars ++ c.later)
      location := c.location.past as } := by
  apply advanceOver_eq
  · rw [← List.append_assoc, ← h]
    exact c.rest_eq
  · intro hmem
    apply Text.not_mem_body_firstLine c.rest
    rw [show (Text.firstLine c.rest).1.body = as ++ bs from h]
    exact List.mem_append_left _ hmem

theorem firstLine_advanceOver :
    (c.advanceOver as).line = ⟨bs, c.line.ending⟩ ∧ (c.advanceOver as).later = c.later := by
  have hrest : c.rest = as ++ (bs ++ (c.line.ending.chars ++ c.later)) := by
    rw [← List.append_assoc, ← h]
    exact c.rest_eq
  have hfirst : Text.firstLine (bs ++ (c.line.ending.chars ++ c.later)) = (⟨bs, c.line.ending⟩, c.later) := by
    have hbody : (Text.firstLine (as ++ (bs ++ (c.line.ending.chars ++ c.later)))).1.body = as ++ bs := by
      rw [← hrest]
      exact h
    have hall := Text.firstLine_append hbody
    rw [← hrest] at hall
    exact hall
  rw [advanceOver_body h]
  unfold line later at hfirst ⊢
  rw [hfirst]
  exact ⟨rfl, rfl⟩

theorem since_advanceOver : (c.advanceOver as).since c = as := by
  unfold since
  rw [advanceOver_body h]
  dsimp only
  rw [Location.offset_past, Nat.add_sub_cancel_left, c.rest_eq, h, List.append_assoc]
  exact Text.takeBytes_byteLength_append _ _

end

theorem rest_of_body (h : c.line.body = x :: cs) : c.rest = x :: (cs ++ (c.line.ending.chars ++ c.later)) := by
  rw [c.rest_eq, h]
  rfl

theorem line_bump (h : c.line.body = x :: cs) : c.bump.line = ⟨cs, c.line.ending⟩ :=
  (firstLine_advanceOver (show c.line.body = [x] ++ cs from h)).1

theorem later_bump (h : c.line.body = x :: cs) : c.bump.later = c.later :=
  (firstLine_advanceOver (show c.line.body = [x] ++ cs from h)).2

theorem exists_body_of_not_atLineEnd (h : ¬ c.atLineEnd) : ∃ x cs, c.line.body = x :: cs :=
  List.exists_cons_of_ne_nil (atLineEnd_iff.not.1 h)

theorem atLineEnd_tail (c : Cursor) : Text.AtLineEnd (c.line.ending.chars ++ c.later) :=
  Text.atLineEnd_firstLine c.rest

theorem advanceToLineEnd_eq (c : Cursor) : c.advanceToLineEnd = c.advanceOver c.line.body := by
  fun_induction advanceToLineEnd c with
  | case1 c h =>
    rw [atLineEnd_iff.1 h]
    rfl
  | case2 c h hlt ih =>
    obtain ⟨x, cs, hbody⟩ := exists_body_of_not_atLineEnd h
    rw [ih, line_bump hbody, hbody]
    rfl

theorem lineRemainder_eq (c : Cursor) : c.lineRemainder = Text.dropEndWhile (· = '\r') c.line.body := by
  have hall : ∀ x ∈ c.line.body, decide (x ≠ '\n') = true := by
    intro x hx
    exact decide_eq_true fun heq => Text.not_mem_body_firstLine c.rest (heq ▸ hx)
  unfold lineRemainder
  rw [c.rest_eq, List.takeWhile_append_of_pos hall]
  rcases c.atLineEnd_tail with htail | ⟨rest, htail | htail⟩
  · rw [htail]
    simp
  · rw [htail]
    simp
  · rw [htail]
    exact Text.dropEndWhile_append_of_forall _ (by simp)

/-! ## Lexemes -/

structure Reads (start : Cursor) (lx : Lexeme) (read : Option Token × Cursor) : Prop where
  token : read.1 = lx.token.map fun found =>
    ⟨found.1, String.ofList found.2, start.location, (start.location.past lx.span).offset, none⟩
  cursor : read.2 =
    { start.advanceOver (lx.span ++ lx.slack) with
      errors := start.errors ++ (lx.fault.map fun fault => ⟨fault, start.location⟩).toList }

theorem errors_advanceOver (h : c.line.body = as ++ bs) : (c.advanceOver as).errors = c.errors := by
  rw [advanceOver_body h]

theorem location_advanceOver (h : c.line.body = as ++ bs) : (c.advanceOver as).location = c.location.past as := by
  rw [advanceOver_body h]

/-- A rule without a fault reads its span, and no more. -/
theorem reads_of_span {kind : TokenKind} {text : List Char} (h : c.line.body = as ++ bs) :
    c.Reads { token := some (kind, text), span := as, rest := bs }
      (some ((c.advanceOver as).token kind text c), c.advanceOver as) where
  token := by
    unfold Cursor.token
    rw [location_advanceOver h]
    rfl
  cursor := by
    dsimp only [Option.map_none, Option.toList_none]
    rw [List.append_nil, List.append_nil, ← errors_advanceOver h]

/-- A rule with a fault records it where it started. -/
theorem reads_of_fault {kind : TokenKind} {text : List Char} (fault : LexicalFault) (h : c.line.body = as ++ bs) :
    c.Reads { token := some (kind, text), fault := some fault, span := as, rest := bs }
      (some ((c.advanceOver as).token kind text c), (c.advanceOver as).error fault c.location) where
  token := by
    unfold Cursor.token
    rw [location_advanceOver h]
    rfl
  cursor := by
    unfold error
    rw [errors_advanceOver h, List.append_nil]
    rfl

theorem reads_comment (h : c.line.body = '#' :: cs) :
    c.Reads (.comment cs) (some c.lexComment.1, c.lexComment.2) := by
  have hline := line_bump h
  have hall : c.bump.advanceToLineEnd = c.advanceOver ('#' :: cs) := by
    rw [advanceToLineEnd_eq, hline]
    rfl
  unfold lexComment
  dsimp only
  rw [hall, lineRemainder_eq, hline, Text.trim_dropEndWhile_cr]
  exact reads_of_span (by rw [h, List.append_nil])

theorem reads_tableRow (h : c.line.body = '|' :: cs) :
    c.Reads (.tableRow cs) (some c.lexTableRow.1, c.lexTableRow.2) := by
  unfold lexTableRow
  dsimp only
  rw [advanceToLineEnd_eq, lineRemainder_eq, Text.trimEnd_dropEndWhile_cr, h]
  exact reads_of_span (by rw [h, List.append_nil])

theorem reads_tag (h : c.line.body = '@' :: cs) : c.Reads (.tag cs) c.lexTag := by
  have hline := line_bump h
  have hname : c.bump.rest.takeWhile Lexeme.isTagCharacter = cs.takeWhile Lexeme.isTagCharacter := by
    rw [c.bump.rest_eq, hline]
    exact Text.takeWhile_append_lineEnd (hline ▸ c.bump.atLineEnd_tail) (by decide) (by decide)
  unfold lexTag Lexeme.tag
  dsimp only
  rw [hname]
  split
  · refine ⟨rfl, ?_⟩
    unfold error
    rw [show c.bump.errors = c.errors from errors_advanceOver (show c.line.body = ['@'] ++ cs from h)]
    rfl
  · exact reads_of_span (by rw [h, List.cons_append, List.takeWhile_append_dropWhile])

/-! ### Free text -/

theorem stopsText_eq (h : c.line.body = x :: cs) : c.stopsText =
    (x = '"' || (x = '\'' && c.quoteMayOpen) || (x = '<' && (Placeholder.name? cs).isSome)) := by
  have hname : Placeholder.name? (cs ++ (c.line.ending.chars ++ c.later)) = _ :=
    Placeholder.name?_append_lineEnd c.atLineEnd_tail
  have hrest := rest_of_body h
  unfold stopsText
  rw [hrest]
  -- A placeholder has to close within the line, so what follows the line does not matter to it.
  split
  case h_1 heq =>
    rw [(List.cons.inj heq).1]
    rfl
  case h_2 heq =>
    rw [(List.cons.inj heq).1]
    simp
  case h_3 heq =>
    obtain ⟨rfl, rfl⟩ := List.cons.inj heq
    rw [hname, Option.isSome_map]
    simp
  case h_4 hdouble hsingle hbracket =>
    have h1 : x ≠ '"' := fun hx => hdouble _ (by rw [hx])
    have h2 : x ≠ '\'' := fun hx => hsingle _ (by rw [hx])
    have h3 : x ≠ '<' := fun hx => hbracket _ (by rw [hx])
    simp [h1, h2, h3]

theorem quoteMayOpen_bump (h : c.line.body = x :: cs) : c.bump.quoteMayOpen = Text.isBlank x := by
  rw [show c.bump = _ from advanceOver_body (show c.line.body = [x] ++ cs from h)]
  rfl

theorem advanceOverText_eq (c : Cursor) :
    c.advanceOverText = c.advanceOver (Lexeme.textTail c.quoteMayOpen c.line.body).1 := by
  fun_induction advanceOverText c with
  | case1 c h =>
    by_cases hend : c.atLineEnd
    · rw [atLineEnd_iff.1 hend]
      rfl
    · obtain ⟨x, cs, hbody⟩ := exists_body_of_not_atLineEnd hend
      have hstops := h.resolve_left hend
      rw [stopsText_eq hbody] at hstops
      rw [hbody, Lexeme.textTail, if_pos hstops]
      rfl
  | case2 c h hlt ih =>
    obtain ⟨hend, hstops⟩ := not_or.1 h
    obtain ⟨x, cs, hbody⟩ := exists_body_of_not_atLineEnd hend
    rw [stopsText_eq hbody] at hstops
    rw [ih, quoteMayOpen_bump hbody, line_bump hbody, hbody, Lexeme.textTail, if_neg hstops]
    rfl

theorem reads_text (h : c.line.body = x :: cs) : c.Reads (.text x cs) (some c.lexText.1, c.lexText.2) := by
  have htail := Lexeme.textTail_append (Text.isBlank x) cs
  have hover : c.bump.advanceOverText = c.advanceOver (x :: (Lexeme.textTail (Text.isBlank x) cs).1) := by
    rw [advanceOverText_eq, quoteMayOpen_bump h, line_bump h]
    rfl
  unfold lexText Lexeme.text
  dsimp only
  rw [hover]
  generalize Lexeme.textTail (Text.isBlank x) cs = found at htail ⊢
  obtain ⟨taken, rest⟩ := found
  have hbody : c.line.body = (x :: taken) ++ rest := by rw [h, List.cons_append, htail]
  dsimp only
  rw [since_advanceOver hbody]
  refine ⟨?_, ?_⟩
  · rw [Option.map_some, Location.offset_past]
  · dsimp only [Option.map_none, Option.toList_none]
    rw [Text.trimEnd, Text.dropEndWhile_append_takeEndWhile, List.append_nil, ← errors_advanceOver hbody]

theorem exists_body_of_head? (h : ¬ c.atLineEnd) (hx : c.rest.head? = some x) : ∃ cs, c.line.body = x :: cs := by
  obtain ⟨y, cs, hbody⟩ := exists_body_of_not_atLineEnd h
  rw [rest_of_body hbody] at hx
  rw [Option.some.inj hx] at hbody
  exact ⟨cs, hbody⟩

/-- A backslash that escapes nothing is the last character of its line. -/
theorem eq_nil_of_not_escape (h : c.line.body = x :: cs) (hescape : ¬ (x = '\\' ∧ (!c.bump.atLineEnd) = true)) (y : Char)
    (more : List Char) (hx : x = '\\') (hcs : cs = y :: more) : False := by
  apply hescape
  refine ⟨hx, ?_⟩
  have hend : ¬ c.bump.atLineEnd := by
    rw [atLineEnd_iff, line_bump h, hcs]
    exact List.cons_ne_nil y more
  simpa using hend

theorem quotedContent?_eq (quote : Char) (content : List Char) (c : Cursor) :
    c.quotedContent? quote content =
      (Lexeme.quotedTail? quote c.line.body).elim (none, c.advanceOver c.line.body)
        fun found => (some (content ++ found.1), c.advanceOver found.2.1) := by
  -- The character machine stops at a line end, which is the end of the body for the list scanner.
  fun_induction quotedContent? quote content c with
  | case1 content c h =>
    rw [atLineEnd_iff.1 h]
    rfl
  | case2 content c h hlt hx =>
    obtain ⟨x, cs, hbody⟩ := exists_body_of_not_atLineEnd h
    rw [rest_of_body hbody] at hx
    cases hx
  | case3 content c h hlt x hx hescape hless ih =>
    obtain ⟨cs, hbody⟩ := exists_body_of_head? h hx
    obtain ⟨rfl, hmore⟩ := hescape
    obtain ⟨y, more, hsecond⟩ := exists_body_of_not_atLineEnd (by simpa using hmore)
    have hcs : cs = y :: more := by
      rw [line_bump hbody] at hsecond
      exact hsecond
    rw [ih, line_bump hsecond, hbody, hcs, Lexeme.quotedTail?, rest_of_body hsecond]
    cases Lexeme.quotedTail? quote more with
    | none => rfl
    | some found => exact congrArg (fun cs => (some cs, _)) (List.append_assoc _ _ _)
  | case4 content c h hlt hx hescape =>
    obtain ⟨cs, hbody⟩ := exists_body_of_head? h hx
    rw [hbody, Lexeme.quotedTail?.eq_3 _ _ _ (eq_nil_of_not_escape hbody hescape), if_pos rfl]
    exact congrArg (fun cs => (some cs, _)) (List.append_nil _).symm
  | case5 content c h hlt x hx hescape hquote ih =>
    obtain ⟨cs, hbody⟩ := exists_body_of_head? h hx
    rw [ih, line_bump hbody, hbody, Lexeme.quotedTail?.eq_3 _ _ _ (eq_nil_of_not_escape hbody hescape), if_neg hquote]
    cases Lexeme.quotedTail? quote cs with
    | none => rfl
    | some found => exact congrArg (fun cs => (some cs, _)) (List.append_assoc _ _ _)

theorem reads_quoted {quote : Char} (h : c.line.body = quote :: cs) :
    c.Reads (.quoted quote cs) (some (c.lexQuoted quote).1, (c.lexQuoted quote).2) := by
  unfold lexQuoted Lexeme.quoted
  rw [quotedContent?_eq, line_bump h]
  cases hquoted : Lexeme.quotedTail? quote cs with
  | some found =>
    obtain ⟨content, written, rest⟩ := found
    have hbody : c.line.body = (quote :: written) ++ rest := by
      rw [h, ← Lexeme.append_of_quotedTail? hquoted]
      rfl
    exact reads_of_span hbody
  | none =>
    have hbody : c.line.body = (quote :: cs) ++ [] := by rw [h, List.append_nil]
    dsimp only [Option.elim]
    rw [show c.bump.advanceOver cs = c.advanceOver (quote :: cs) from rfl]
    by_cases hquote : quote = '"'
    · rw [if_pos hquote, if_pos hquote]
      show c.Reads _ (some ((c.advanceOver (quote :: cs)).token .text
        (Text.trimEnd ((c.advanceOver (quote :: cs)).since c)) c), _)
      rw [since_advanceOver hbody]
      exact reads_of_fault .unterminatedString hbody
    · rw [if_neg hquote, if_neg hquote, since_advanceOver hbody]
      exact reads_of_span hbody

theorem reads_placeholder (h : c.line.body = '<' :: cs) : c.lexPlaceholder? =
    (Placeholder.name? cs).map fun found =>
      ((c.advanceOver ('<' :: (found.1 ++ ['>']))).token .placeholder found.1 c,
        c.advanceOver ('<' :: (found.1 ++ ['>']))) := by
  have hrest : c.bump.rest = cs ++ (c.bump.line.ending.chars ++ c.bump.later) := by
    rw [c.bump.rest_eq, line_bump h]
  unfold lexPlaceholder?
  rw [hrest, Placeholder.name?_append_lineEnd c.bump.atLineEnd_tail, Option.map_map]
  congr 1
  funext found
  show _ = ((c.bump.advanceOver (found.1 ++ ['>'])).token _ _ _, c.bump.advanceOver (found.1 ++ ['>']))
  rw [advanceOver_append]
  rfl

theorem reads_inline (h : c.line.body = x :: cs) :
    c.Reads (.inline c.quoteMayOpen x cs) (some (c.lexInline x).1, (c.lexInline x).2) := by
  unfold lexInline
  split
  case h_1 => exact reads_quoted h
  case h_2 =>
    unfold Lexeme.inline
    by_cases hopen : c.quoteMayOpen
    · rw [if_pos hopen, if_pos (by simp [hopen])]
      exact reads_quoted h
    · rw [if_neg hopen, if_neg (by simp [hopen]), if_neg (by decide)]
      exact reads_text h
  case h_3 =>
    unfold Lexeme.inline
    rw [if_neg (by simp), if_pos rfl, reads_placeholder h]
    cases hname : Placeholder.name? cs with
    | none => exact reads_text h
    | some found =>
      obtain ⟨name, rest⟩ := found
      apply reads_of_span
      rw [h, Placeholder.eq_append_of_name? hname]
      simp
  case h_4 hdouble hsingle hbracket =>
    have hquote : ¬ (x = '"' || (x = '\'' && c.quoteMayOpen)) := by
      rw [decide_eq_false hdouble, decide_eq_false hsingle]
      exact Bool.false_ne_true
    unfold Lexeme.inline
    rw [if_neg hquote, if_neg hbracket]
    exact reads_text h

/-! ### Keywords -/

theorem reads_keywordOrText (h : c.line.body = x :: cs) :
    c.Reads ((Lexeme.keyword? c.dialect x cs).getD (.inline c.quoteMayOpen x cs))
      (some (c.lexKeywordOrText x).1, (c.lexKeywordOrText x).2) := by
  unfold lexKeywordOrText Lexeme.keyword?
  dsimp only
  rw [lineRemainder_eq, h]
  cases hfound : c.dialect.precedence.findSome?
      (Lexeme.keywordBy? c.dialect (Text.dropEndWhile (· = '\r') (x :: cs))) with
  | none => exact reads_inline h
  | some found =>
    obtain ⟨kind, written, terminator⟩ := found
    obtain ⟨s, -, hkeyword⟩ := List.exists_of_findSome?_eq_some hfound
    have hspan := Lexeme.span_of_keywordBy? hkeyword
    dsimp only [Option.map_some, Option.getD_some]
    rw [hspan]
    have hline := congrArg (x :: ·) (List.take_append_drop ((written ++ terminator).length - 1) cs)
    rw [← List.cons_append, hspan] at hline
    exact reads_of_span (h.trans hline.symm)

end Cursor

end Gherkin
