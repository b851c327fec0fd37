import Gherkin.Proofs.Token.Layout

/-!
# Where results of a scan come from

Every result of a scan comes from a lexeme, a line end, a doc string or the end of the source, at the place
of the source where it is located.  So every token covers a span of the source.
-/

namespace Gherkin

namespace Scanned

variable {xs : List Scanned}

theorem mem_tokens_iff {t : Token} : t ∈ xs.filterMap token? ↔ .token t ∈ xs := by
  rw [List.mem_filterMap]
  constructor
  · rintro ⟨x, hx, htoken⟩
    cases x with
    | token t' => rwa [← Option.some.inj htoken]
    | error e => simp [token?] at htoken
  · intro h
    exact ⟨_, h, rfl⟩

theorem mem_errors_iff {e : LexicalError} : e ∈ xs.filterMap error? ↔ .error e ∈ xs := by
  rw [List.mem_filterMap]
  constructor
  · rintro ⟨x, hx, herror⟩
    cases x with
    | token t => simp [error?] at herror
    | error e' => rwa [← Option.some.inj herror]
  · intro h
    exact ⟨_, h, rfl⟩

end Scanned

namespace Scan

inductive Origin (d : Dialect) (source : List Char) : Scanned → Prop
  | lexeme {place : Place} {afterBlank : Bool} {loc : Location} {c : Char} {cs rest : List Char}
      {x : Scanned} (hat : loc.At source (c :: cs ++ rest)) (hlf : '\n' ∉ c :: cs)
      (hrest : Text.AtLineEnd rest) (hx : x ∈ ofLexeme loc (Lexeme.take d place afterBlank c cs)) :
      Origin d source x
  | ending {loc : Location} {ending : Text.LineEnd} {rest : List Char} {x : Scanned}
      (hat : loc.At source (ending.chars ++ rest)) (hx : x ∈ ofEnding loc ending) : Origin d source x
  | docString {loc : Location} {l closer : Text.Line} {inner rest : List Text.Line} {f : Fence}
      (hat : loc.At source ((l :: inner ++ closer :: rest).flatMap Text.Line.chars))
      (hcut : Text.WellCut (l :: inner ++ closer :: rest)) (hfence : fence? l = some f) :
      Origin d source (f.token (loc.past f.indent)
        (f.delimiter.content ((loc.past f.indent).column - 1) inner)
        (f.openingSpan ++ l.ending.chars ++ inner.flatMap Text.Line.chars ++ closer.body))
  | unclosed {loc : Location} {l : Text.Line} {ls : List Text.Line} {f : Fence} {x : Scanned}
      (hat : loc.At source ((l :: ls).flatMap Text.Line.chars)) (hcut : Text.WellCut (l :: ls))
      (hfence : fence? l = some f)
      (hx : x = .error ⟨.unterminatedDocString, loc.past f.indent⟩ ∨
        x = f.token (loc.past f.indent) [] f.openingSpan) : Origin d source x
  | finish {loc : Location} (hat : loc.At source []) :
      Origin d source (.token ⟨.eof, "", loc, loc.offset, none⟩)

theorem eq_of_token_mem_ofLexeme {loc : Location} {lx : Lexeme} {t : Token}
    (h : .token t ∈ ofLexeme loc lx) : ∃ kind text, lx.token = some (kind, text) ∧
      t = ⟨kind, String.ofList text, loc, (loc.past lx.span).offset, none⟩ := by
  rw [← Scanned.mem_tokens_iff, tokens_ofLexeme, Option.mem_toList] at h
  rcases Option.map_eq_some_iff.1 h with ⟨⟨kind, text⟩, htoken, rfl⟩
  exact ⟨kind, text, htoken, rfl⟩

theorem eq_of_token_mem_ofEnding {loc : Location} {ending : Text.LineEnd} {t : Token}
    (h : .token t ∈ ofEnding loc ending) :
    t = ⟨.newline, "\n", loc, (loc.past ending.chars).offset, none⟩ := by
  cases ending with
  | lf => exact Scanned.token.inj (List.mem_singleton.1 h)
  | crlf => exact Scanned.token.inj (List.mem_singleton.1 h)
  | missing => simp [ofEnding] at h

variable {d : Dialect} {source : List Char}

theorem origin_of_mem_ofBody {place : Place} {afterBlank : Bool} {loc : Location}
    {body rest : List Char} {x : Scanned} (hat : loc.At source (body ++ rest)) (hbody : '\n' ∉ body)
    (hrest : Text.AtLineEnd rest) (hx : x ∈ ofBody d place afterBlank loc body) :
    Origin d source x := by
  fun_induction ofBody d place afterBlank loc body with
  | case1 => simp at hx
  | case2 place afterBlank loc body gap c cs hdrop loc' lx shorter ih =>
    have htakes : lx.Takes c cs := Lexeme.takes_take d place _ c cs
    have hcut : body = gap ++ (c :: cs) := by
      rw [← hdrop]
      exact List.takeWhile_append_dropWhile.symm
    have hat' : loc'.At source (c :: cs ++ rest) := by
      apply Location.At.past
      rwa [hcut, List.append_assoc] at hat
    have hlf : '\n' ∉ c :: cs := fun h => hbody (by rw [hcut]; exact List.mem_append_right _ h)
    rcases List.mem_append.1 hx with hx | hx
    · exact .lexeme hat' hlf hrest hx
    · refine ih ?_ ?_ hx
      · apply Location.At.past
        rwa [← List.append_assoc, htakes.append_rest]
      · intro h
        apply hlf
        rw [← htakes.append_rest]
        exact List.mem_append_right _ h

/-- A line that opens a doc string is the indentation, the delimiter and the annotation. -/
theorem body_eq_of_fence? {l : Text.Line} {f : Fence} (h : fence? l = some f) :
    l.body = f.indent ++ f.openingSpan ∧ f.indent = l.body.takeWhile isGap := by
  unfold fence? at h
  rcases Option.map_eq_some_iff.1 h with ⟨⟨delimiter, annotation⟩, hopening, rfl⟩
  refine ⟨?_, rfl⟩
  unfold Fence.openingSpan
  rw [← Delimiter.eq_append_of_opening? hopening]
  exact List.takeWhile_append_dropWhile.symm

/-- A doc string starts behind the blanks of the line that opens it. -/
theorem at_openingSpan {loc : Location} {l : Text.Line} {ls : List Text.Line} {f : Fence}
    (hat : loc.At source ((l :: ls).flatMap Text.Line.chars)) (hfence : fence? l = some f) :
    (loc.past f.indent).At source (f.openingSpan ++ (l.ending.chars ++ ls.flatMap Text.Line.chars)) := by
  rw [List.flatMap_cons, Text.Line.chars, (body_eq_of_fence? hfence).1] at hat
  simp only [List.append_assoc] at hat ⊢
  exact hat.past

theorem origin_of_mem_line {loc : Location} {afterBlank : Bool} {l : Text.Line} {ls : List Text.Line}
    {x : Scanned} (hat : loc.At source ((l :: ls).flatMap Text.Line.chars))
    (hcut : Text.WellCut (l :: ls)) (hx : x ∈ (line d loc afterBlank l ls).results) :
    Origin d source x := by
  have hat' : loc.At source (l.body ++ (l.ending.chars ++ ls.flatMap Text.Line.chars)) := by
    rwa [List.flatMap_cons, Text.Line.chars, List.append_assoc] at hat
  unfold line at hx
  cases hfence : fence? l with
  | none =>
    rw [hfence] at hx
    rcases List.mem_append.1 hx with hx | hx
    · exact origin_of_mem_ofBody hat' hcut.1 (Text.atLineEnd_of_wellCut hcut) hx
    · exact .ending hat'.past hx
  | some f =>
    rw [hfence] at hx
    dsimp only at hx
    split at hx
    · rename_i inner closer rest hclosed
      -- The line end of a doc string is that of the line which closes it.
      rw [eq_append_of_cut? hclosed] at hat hcut
      rcases List.mem_cons.1 hx with rfl | hx
      · exact .docString hat hcut hfence
      · have hend : ((loc.past f.indent).past (f.openingSpan ++ l.ending.chars ++
            inner.flatMap Text.Line.chars ++ closer.body)).At source
            (closer.ending.chars ++ rest.flatMap Text.Line.chars) := by
          have hopening := at_openingSpan (List.cons_append ▸ hat) hfence
          apply Location.At.past
          simpa [Text.Line.chars] using hopening
        exact .ending hend hx
    · simp only [List.mem_cons] at hx
      rcases hx with hx | hx | hx
      · exact .unclosed hat hcut hfence (Or.inl hx)
      · exact .unclosed hat hcut hfence (Or.inr hx)
      · have hend : ((loc.past f.indent).past f.openingSpan).At source
            (l.ending.chars ++ ls.flatMap Text.Line.chars) := (at_openingSpan hat hfence).past
        exact .ending hend hx

theorem origin_of_mem_lines {loc : Location} {afterBlank : Bool} {ls : List Text.Line} {x : Scanned}
    (hat : loc.At source (ls.flatMap Text.Line.chars)) (hcut : Text.WellCut ls)
    (hx : x ∈ lines d loc afterBlank ls) : Origin d source x := by
  fun_induction lines d loc afterBlank ls with
  | case1 loc afterBlank =>
    rw [List.mem_singleton.1 hx]
    exact .finish hat
  | case2 loc afterBlank l ls step fewer ih =>
    rcases List.mem_append.1 hx with hx | hx
    · exact origin_of_mem_line hat hcut hx
    · refine ih (at_advance hat) ?_ hx
      have hls : step.taken ++ step.rest = ls := line_taken_append_rest d loc afterBlank l ls
      have hcut' := hcut.2.2
      rw [← hls] at hcut'
      exact Text.wellCut_of_append hcut'

theorem origin_of_mem_all {d : Dialect} {source : String} {x : Scanned} (h : x ∈ all d source) :
    Origin d source.toList x := by
  have hat := Location.at_opening source.toList
  rw [← Text.flatMap_chars_lines (opening source.toList).2.2] at hat
  exact origin_of_mem_lines hat (Text.wellCut_lines _) h

end Scan

section
variable {d : Dialect} {source : String} {xs : List Scanned} {finish : Token}
  (h : Scan.all d source = xs ++ [.token finish])
include h

theorem tokens_of_all_eq : tokens d source = xs.filterMap Scanned.token? ++ [finish] := by
  rw [tokens, h, List.filterMap_append]
  rfl

theorem lexicalErrors_of_all_eq : lexicalErrors d source = xs.filterMap Scanned.error? := by
  rw [lexicalErrors, h, List.filterMap_append]
  exact List.append_nil _

end

theorem origin_of_mem_tokens {d : Dialect} {source : String} {t : Token} (h : t ∈ tokens d source) :
    Scan.Origin d source.toList (.token t) :=
  Scan.origin_of_mem_all (Scanned.mem_tokens_iff.1 h)

theorem Token.exists_span {d : Dialect} {source : String} {t : Token} (h : t ∈ tokens d source) :
    ∃ span rest, t.location.At source.toList (span ++ rest) ∧
      t.stop = (t.location.past span).offset := by
  have horigin := origin_of_mem_tokens h
  generalize hx : Scanned.token t = x at horigin
  cases horigin with
  | @lexeme place afterBlank loc c cs rest _ hat hlf hrest hmem =>
    rw [← hx] at hmem
    rcases Scan.eq_of_token_mem_ofLexeme hmem with ⟨_, _, -, rfl⟩
    rw [← (Lexeme.takes_take d place afterBlank c cs).append_rest, List.append_assoc,
      List.append_assoc] at hat
    exact ⟨_, _, hat, rfl⟩
  | ending hat hmem =>
    rw [← hx] at hmem
    rw [Scan.eq_of_token_mem_ofEnding hmem]
    exact ⟨_, _, hat, rfl⟩
  | @docString loc l closer inner rest f hat hcut hfence =>
    rw [Scanned.token.inj hx]
    have hopening := Scan.at_openingSpan (List.cons_append ▸ hat) hfence
    refine ⟨_, closer.ending.chars ++ rest.flatMap Text.Line.chars, ?_, rfl⟩
    simpa [Text.Line.chars] using hopening
  | @unclosed loc l ls f _ hat hcut hfence hmem =>
    rcases hmem with hmem | hmem
    · rw [hmem] at hx
      simp at hx
    · rw [hmem] at hx
      rw [Scanned.token.inj hx]
      exact ⟨_, _, Scan.at_openingSpan hat hfence, rfl⟩
  | finish hat =>
    rw [Scanned.token.inj hx]
    exact ⟨[], [], hat, rfl⟩

/-- The title after a token is what the source holds from the end of the token to the end of the line. -/
theorem Reader.titleOf_eq {d : Dialect} {source : String} {t : Token} (h : t ∈ tokens d source) :
    ∃ before rest, source.toList = before ++ rest ∧ Text.byteLength before = t.stop ∧
      Reader.titleOf source.toList t = String.ofList (Text.trim (rest.takeWhile (· ≠ '\n'))) := by
  rcases Token.exists_span h with ⟨span, rest, hat, hstop⟩
  rcases hat.past.eq_append with ⟨before, hsource, hoffset⟩
  refine ⟨before, rest, hsource, by rw [hstop, hoffset], ?_⟩
  unfold Reader.titleOf
  rw [hstop, hat.past.textFrom]

end Gherkin
