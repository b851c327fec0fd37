import Gherkin.Proofs.Text.CarriageReturns
import Gherkin.Proofs.Token.Concatenation

/-!
# Scanning behind carriage returns

A source with `CR LF` line ends gives the tokens and the faults that it gives with line feeds alone, each
on the same line and in the same column.  Of what is before it, every line is one byte longer.
-/

namespace Gherkin

namespace Location

def inCrlf (loc : Location) : Location := { loc with offset := loc.offset + (loc.line - 1) }

theorem past_inCrlf {loc : Location} (h : 0 < loc.line) (cs : List Char) :
    (loc.past cs).inCrlf = loc.inCrlf.past (Text.withCrlf cs) := by
  induction cs generalizing loc with
  | nil => rfl
  | cons c cs ih =>
    by_cases hc : c = '\n'
    · have hnext : (loc.next '\n').inCrlf = (loc.inCrlf.next '\r').next '\n' := by
        have hreturn : '\r'.utf8Size = 1 := rfl
        simp only [next, inCrlf, hreturn, if_true, if_neg (show '\r' ≠ '\n' by decide), mk.injEq,
          true_and]
        omega
      rw [hc, Text.withCrlf_cons_lf, past_cons, past_cons, past_cons, ← hnext]
      exact ih (Nat.succ_pos loc.line)
    · have hnext : (loc.next c).inCrlf = loc.inCrlf.next c := by
        simp only [next, inCrlf, if_neg hc, mk.injEq, true_and]
        omega
      have hline : 0 < (loc.next c).line := by
        rw [next, if_neg hc]
        exact h
      rw [Text.withCrlf_cons_of_ne hc, past_cons, past_cons, ← hnext]
      exact ih hline

/-- Within a line nothing is put between two characters. -/
theorem inCrlf_past {loc : Location} (h : 0 < loc.line) {cs : List Char} (hcs : '\n' ∉ cs) :
    loc.inCrlf.past cs = (loc.past cs).inCrlf := by
  rw [past_inCrlf h, Text.withCrlf_eq_self hcs]

theorem le_inCrlf (a b : Location) : a.inCrlf.le b.inCrlf = a.le b := by
  unfold inCrlf le
  rw [Bool.eq_iff_iff]
  simp only [Bool.or_eq_true, Bool.and_eq_true, decide_eq_true_eq, beq_iff_eq]
  omega

/-! ## Places -/

/-- The mark before the first line is no line end. -/
theorem opening_withCrlf (source : List Char) : Scan.opening (Text.withCrlf source) =
    ((Scan.opening source).1, (Scan.opening source).2.1, Text.withCrlf (Scan.opening source).2.2) := by
  cases source with
  | nil => rfl
  | cons c cs =>
    by_cases hc : c = '\n'
    · rw [hc, Text.withCrlf_cons_lf]
      rfl
    · rw [Text.withCrlf_cons_of_ne hc]
      unfold Scan.opening
      by_cases hmark : c = Scan.byteOrderMark
      · simp only [if_pos hmark]
      · simp only [if_neg hmark, Text.withCrlf_cons_of_ne hc]

theorem line_opening (source : List Char) : (Scan.opening source).1.line = 1 := by
  rcases opening_spec source with ⟨mark, -, -, hopening⟩
  rw [hopening]

theorem opening_inCrlf (source : List Char) :
    (Scan.opening source).1.inCrlf = (Scan.opening source).1 := by
  rcases opening_spec source with ⟨mark, -, -, hopening⟩
  rw [hopening]
  rfl

variable {source cs : List Char} {loc : Location}

theorem At.line_pos (h : loc.At source cs) : 0 < loc.line := by
  rcases h with ⟨before, -, rfl⟩
  rw [line_past, line_opening]
  omega

theorem At.inCrlf (h : loc.At source cs) : loc.inCrlf.At (Text.withCrlf source) (Text.withCrlf cs) := by
  rcases h with ⟨before, hsource, rfl⟩
  have hline : 0 < (Scan.opening source).1.line := by
    rw [line_opening]
    omega
  refine ⟨Text.withCrlf before, ?_, ?_⟩
  · rw [opening_withCrlf, hsource, Text.withCrlf_append]
  · rw [past_inCrlf hline, opening_inCrlf, opening_withCrlf]

/-- The offset of a place tells its offset with `CR LF` line ends. -/
theorem At.crlfOffset (h : loc.At source cs) :
    Text.crlfOffset source loc.offset = loc.inCrlf.offset := by
  rcases h.eq_append with ⟨before, hsource, hoffset⟩
  rcases h.inCrlf.eq_append with ⟨before', hsource', hoffset'⟩
  -- The two texts before the place are one text, without carriage returns and with them.
  rw [hsource, Text.withCrlf_append] at hsource'
  rw [hoffset', ← List.append_cancel_right hsource', hoffset, hsource, Text.crlfOffset_byteLength]

/-- Where a span stops with `CR LF` line ends. -/
theorem At.crlfOffset_past {span rest : List Char} (h : loc.At source (span ++ rest)) :
    Text.crlfOffset source (loc.past span).offset = (loc.inCrlf.past (Text.withCrlf span)).offset := by
  rw [h.past.crlfOffset, past_inCrlf h.line_pos]

end Location

/-! ## Results -/

def Token.inCrlf (source : List Char) (t : Token) : Token :=
  { t with location := t.location.inCrlf, stop := Text.crlfOffset source t.stop }

def LexicalError.inCrlf (e : LexicalError) : LexicalError := { e with location := e.location.inCrlf }

def Scanned.inCrlf (source : List Char) : Scanned → Scanned
  | .token t => .token (t.inCrlf source)
  | .error e => .error e.inCrlf

namespace Scan

variable {d : Dialect} {source : List Char} {loc : Location}

theorem ofLexeme_inCrlf {lx : Lexeme} {rest : List Char} (hat : loc.At source (lx.span ++ rest))
    (hspan : '\n' ∉ lx.span) :
    ofLexeme loc.inCrlf lx = (ofLexeme loc lx).map (Scanned.inCrlf source) := by
  have hstop := hat.crlfOffset_past
  rw [Text.withCrlf_eq_self hspan] at hstop
  unfold ofLexeme
  rw [← hstop]
  cases lx.fault <;> cases lx.token <;> rfl

theorem ofEnding_inCrlf {ending : Text.LineEnd} {rest : List Char}
    (hat : loc.At source (ending.chars ++ rest)) (h : ending ≠ .crlf) :
    ofEnding loc.inCrlf ending.withCrlf = (ofEnding loc ending).map (Scanned.inCrlf source) := by
  cases ending with
  | lf =>
    have hstop : Text.crlfOffset source (loc.past ['\n']).offset =
        (loc.inCrlf.past ['\r', '\n']).offset := hat.crlfOffset_past
    show [Scanned.token ⟨.newline, "\n", loc.inCrlf, (loc.inCrlf.past ['\r', '\n']).offset, none⟩] = _
    rw [← hstop]
    rfl
  | crlf => exact absurd rfl h
  | missing => rfl

theorem ofBody_inCrlf {place : Place} {afterBlank : Bool} {body rest : List Char}
    (hat : loc.At source (body ++ rest)) (hbody : '\n' ∉ body) :
    ofBody d place afterBlank loc.inCrlf body =
      (ofBody d place afterBlank loc body).map (Scanned.inCrlf source) := by
  fun_induction ofBody d place afterBlank loc body with
  | case1 place afterBlank loc body hdrop =>
    rw [ofBody_of_dropWhile_eq_nil hdrop]
    rfl
  | case2 place afterBlank loc body gap c cs hdrop loc' lx shorter ih =>
    -- No line end is inside the line, so every place on it is as far from the start of the line as before.
    have htakes : lx.Takes c cs := Lexeme.takes_take d place _ c cs
    have hcut : body = gap ++ (lx.span ++ lx.slack ++ lx.rest) := by
      rw [htakes.append_rest, ← hdrop]
      exact List.takeWhile_append_dropWhile.symm
    rw [hcut, List.append_assoc] at hat
    rw [hcut] at hbody
    simp only [List.mem_append, not_or] at hbody
    rcases hbody with ⟨hgap, ⟨hspan, hslack⟩, hrest⟩
    have hat' : loc'.At source (lx.span ++ lx.slack ++ lx.rest ++ rest) := hat.past
    have hloc : loc.inCrlf.past gap = loc'.inCrlf := Location.inCrlf_past hat.line_pos hgap
    have hnext : loc'.inCrlf.past (lx.span ++ lx.slack) = (loc'.past (lx.span ++ lx.slack)).inCrlf :=
      Location.inCrlf_past hat'.line_pos (by simp [hspan, hslack])
    rw [List.append_assoc, List.append_assoc] at hat'
    have hlexeme := ofLexeme_inCrlf hat' hspan
    rw [← List.append_assoc] at hat'
    have hmore := ih hat'.past hrest
    rw [ofBody_of_dropWhile_eq_cons hdrop]
    dsimp only
    rw [hloc, hlexeme, hnext, hmore, List.map_append]

/-! ## Lines -/

theorem cut?_withCrlf {p : Text.Line → Bool} (hp : ∀ l, p l.withCrlf = p l) (ls : List Text.Line) :
    cut? p (ls.map Text.Line.withCrlf) = (cut? p ls).map fun (before, found, after) =>
      (before.map Text.Line.withCrlf, found.withCrlf, after.map Text.Line.withCrlf) := by
  induction ls with
  | nil => rfl
  | cons l ls ih =>
    rw [List.map_cons, cut?, cut?, hp l, ih]
    by_cases hl : p l
    · rw [if_pos hl, if_pos hl]
      rfl
    · rw [if_neg hl, if_neg hl, Option.map_map, Option.map_map]
      rfl

theorem content_withCrlf (delimiter : Delimiter) (indent : Nat) (ls : List Text.Line) :
    delimiter.content indent (ls.map Text.Line.withCrlf) = delimiter.content indent ls := by
  unfold Delimiter.content
  rw [List.map_map]
  rfl

def Step.inCrlf (source : List Char) (s : Step) : Step where
  results := s.results.map (Scanned.inCrlf source)
  taken := s.taken.map Text.Line.withCrlf
  rest := s.rest.map Text.Line.withCrlf

theorem fence_inCrlf (f : Fence) (content : List Char) {span rest : List Char} {ending : Text.LineEnd}
    (hat : loc.At source (span ++ (ending.chars ++ rest))) (h : ending ≠ .crlf) :
    f.token loc.inCrlf content (Text.withCrlf span) ::
        ofEnding (loc.inCrlf.past (Text.withCrlf span)) ending.withCrlf =
      (f.token loc content span :: ofEnding (loc.past span) ending).map (Scanned.inCrlf source) := by
  have hending := ofEnding_inCrlf hat.past h
  rw [Location.past_inCrlf hat.line_pos] at hending
  rw [List.map_cons, ← hending]
  unfold Fence.token
  rw [← hat.crlfOffset_past]
  rfl

/-- What a closed doc string goes over: from its opening delimiter to the delimiter that closes it. -/
theorem span_withCrlf {f : Fence} {l closer : Text.Line} {inner : List Text.Line}
    (hopening : '\n' ∉ f.openingSpan) (hending : l.ending ≠ .crlf) (hinner : ∀ l' ∈ inner, l'.IsPlain)
    (hcloser : closer.IsPlain) :
    f.openingSpan ++ l.withCrlf.ending.chars ++ (inner.map Text.Line.withCrlf).flatMap Text.Line.chars ++
        closer.withCrlf.body =
      Text.withCrlf
        (f.openingSpan ++ l.ending.chars ++ inner.flatMap Text.Line.chars ++ closer.body) := by
  rw [Text.withCrlf_append, Text.withCrlf_append, Text.withCrlf_append,
    Text.withCrlf_eq_self hopening, Text.withCrlf_eq_self hcloser.1,
    Text.flatMap_chars_withCrlf hinner, ← Text.LineEnd.chars_withCrlf hending]
  rfl

theorem line_inCrlf {afterBlank : Bool} {l : Text.Line} {ls : List Text.Line}
    (hat : loc.At source ((l :: ls).flatMap Text.Line.chars)) (hplain : ∀ l' ∈ l :: ls, l'.IsPlain) :
    line d loc.inCrlf afterBlank l.withCrlf (ls.map Text.Line.withCrlf) =
      (line d loc afterBlank l ls).inCrlf source := by
  rcases hplain l List.mem_cons_self with ⟨hbody, hending⟩
  have hline := hat.line_pos
  -- Whether the line opens a doc string, and which, is told by its body.
  have hfence : fence? l.withCrlf = fence? l := rfl
  rw [List.flatMap_cons, Text.Line.chars, List.append_assoc] at hat
  unfold line
  rw [hfence]
  cases hopens : fence? l with
  | none =>
    show Step.mk (ofBody d .first afterBlank loc.inCrlf l.body ++
      ofEnding (loc.inCrlf.past l.body) l.ending.withCrlf) [] _ = _
    rw [Location.inCrlf_past hline hbody, ofBody_inCrlf hat hbody, ofEnding_inCrlf hat.past hending,
      ← List.map_append]
    rfl
  | some f =>
    have hl := (body_eq_of_fence? hopens).1
    rw [hl, List.mem_append, not_or] at hbody
    rw [hl, List.append_assoc] at hat
    have hstart := hat.past
    dsimp only
    rw [cut?_withCrlf fun _ => rfl, Location.inCrlf_past hline hbody.1]
    generalize loc.past f.indent = start at hstart ⊢
    cases hclosed : cut? (fun l => f.delimiter.closes l.body) ls with
    | none =>
      have hresults := fence_inCrlf f [] hstart hending
      rw [Text.withCrlf_eq_self hbody.2] at hresults
      exact congrArg (fun xs => Step.mk (Scanned.error ⟨.unterminatedDocString, start.inCrlf⟩ :: xs) [] _)
        hresults
    | some found =>
      rcases found with ⟨inner, closer, rest⟩
      have hls := eq_append_of_cut? hclosed
      rw [hls] at hplain
      have hinner : ∀ l' ∈ inner, l'.IsPlain := fun l' hl' => hplain l' (by simp [hl'])
      have hcloser : closer.IsPlain := hplain closer (by simp)
      have hend : start.At source (f.openingSpan ++ l.ending.chars ++ inner.flatMap Text.Line.chars ++
          closer.body ++ (closer.ending.chars ++ rest.flatMap Text.Line.chars)) := by
        rw [hls, List.flatMap_append, List.flatMap_cons, Text.Line.chars] at hstart
        simpa only [List.append_assoc] using hstart
      dsimp only [Option.map_some]
      rw [span_withCrlf hbody.2 hending hinner hcloser, content_withCrlf]
      show Step.mk (_ :: ofEnding _ closer.ending.withCrlf) _ _ = _
      rw [fence_inCrlf f _ hend hcloser.2, ← List.map_singleton, ← List.map_append]
      rfl

theorem advance_inCrlf (h : 0 < loc.line) {l : Text.Line} {taken : List Text.Line}
    (hplain : ∀ l' ∈ l :: taken, l'.IsPlain) :
    advance loc.inCrlf l.withCrlf (taken.map Text.Line.withCrlf) = (advance loc l taken).inCrlf := by
  unfold advance
  rw [Location.past_inCrlf h, ← List.flatMap_cons, ← List.flatMap_cons, ← List.map_cons,
    Text.flatMap_chars_withCrlf hplain]

theorem lines_inCrlf {afterBlank : Bool} {ls : List Text.Line}
    (hat : loc.At source (ls.flatMap Text.Line.chars)) (hplain : ∀ l ∈ ls, l.IsPlain) :
    lines d loc.inCrlf afterBlank (ls.map Text.Line.withCrlf) =
      (lines d loc afterBlank ls).map (Scanned.inCrlf source) := by
  fun_induction lines d loc afterBlank ls with
  | case1 loc afterBlank =>
    rw [List.map_nil, lines, ← hat.crlfOffset]
    rfl
  | case2 loc afterBlank l ls step fewer ih =>
    have hls : step.taken ++ step.rest = ls := line_taken_append_rest d loc afterBlank l ls
    have htaken : ∀ l' ∈ l :: step.taken, l'.IsPlain := by
      intro l' hl'
      apply hplain
      rw [← hls, ← List.cons_append]
      exact List.mem_append_left _ hl'
    have hrest : ∀ l' ∈ step.rest, l'.IsPlain := by
      intro l' hl'
      apply hplain
      rw [← hls]
      exact List.mem_cons_of_mem l (List.mem_append_right _ hl')
    rw [List.map_cons, lines, line_inCrlf hat hplain]
    show (Step.inCrlf source step).results ++ lines d
      (advance loc.inCrlf l.withCrlf (Step.inCrlf source step).taken) true
        (Step.inCrlf source step).rest = _
    dsimp only [Step.inCrlf]
    rw [advance_inCrlf hat.line_pos htaken, ih (at_advance hat) hrest, List.map_append]

theorem all_withCrlf (d : Dialect) {source : String} (h : '\r' ∉ source.toList) :
    all d (String.ofList (Text.withCrlf source.toList)) =
      (all d source).map (Scanned.inCrlf source.toList) := by
  have hat := Location.at_opening source.toList
  have hreturns : '\r' ∉ (opening source.toList).2.2 := by
    rcases Location.opening_eq_append source.toList with ⟨mark, -, hsource, -⟩
    intro hmem
    apply h
    rw [hsource]
    exact List.mem_append_right _ hmem
  rw [← Text.flatMap_chars_lines (opening source.toList).2.2] at hat
  rw [all_eq, all_eq, String.toList_ofList, Location.opening_withCrlf]
  dsimp only
  rw [Text.lines_withCrlf hreturns, ← lines_inCrlf hat (Text.isPlain_of_mem_lines hreturns),
    Location.opening_inCrlf]

end Scan

/-- The end of the lines is a token, whatever they hold. -/
theorem Scan.exists_token_mem_lines (d : Dialect) (loc : Location) (afterBlank : Bool)
    (ls : List Text.Line) : ∃ t, Scanned.token t ∈ Scan.lines d loc afterBlank ls := by
  fun_induction Scan.lines d loc afterBlank ls with
  | case1 loc afterBlank => exact ⟨_, List.mem_cons_self⟩
  | case2 loc afterBlank l ls step fewer ih =>
    rcases ih with ⟨t, ht⟩
    exact ⟨t, List.mem_append_right _ ht⟩

theorem tokens_ne_nil (d : Dialect) (source : String) : tokens d source ≠ [] := by
  rcases Scan.exists_token_mem_lines d (Scan.opening source.toList).1 (Scan.opening source.toList).2.1
    (Text.lines (Scan.opening source.toList).2.2) with ⟨t, ht⟩
  have hmem : t ∈ tokens d source := List.mem_filterMap.2 ⟨.token t, ht, rfl⟩
  exact List.ne_nil_of_mem hmem

variable {source : String}

/-- The tokens are the same, each at its place. -/
theorem tokens_withCrlf (d : Dialect) (h : '\r' ∉ source.toList) :
    tokens d (String.ofList (Text.withCrlf source.toList)) =
      (tokens d source).map (Token.inCrlf source.toList) := by
  unfold tokens
  rw [Scan.all_withCrlf d h]
  exact Scanned.token?_map (fun x => by cases x <;> rfl) _

theorem lexicalErrors_withCrlf (d : Dialect) (h : '\r' ∉ source.toList) :
    lexicalErrors d (String.ofList (Text.withCrlf source.toList)) =
      (lexicalErrors d source).map LexicalError.inCrlf := by
  unfold lexicalErrors
  rw [Scan.all_withCrlf d h]
  exact Scanned.error?_map (fun x => by cases x <;> rfl) _

end Gherkin
