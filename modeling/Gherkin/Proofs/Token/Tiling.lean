import Gherkin.Proofs.Token.Decoding
import Gherkin.Proofs.Token.Origin

/-!
# Tokens tile the source

The results of a scan account for every character of the source, from left to right: it belongs to the
span of one token, or it is a blank, or an `@` whose missing name is a fault.  No result starts before
the one in front of it has stopped.
-/

namespace Gherkin

structure Token.Covers (t : Token) (start : Nat) (span : List Char) : Prop where
  offset : t.location.offset = start
  stop : t.stop = start + Text.byteLength span
  decodes : t.Decodes span
  not_eof : t.kind ≠ .eof
  lineFeed : '\n' ∈ span → t.kind = .newline ∨ t.kind = .docString

namespace Scan

/-- The results account for the characters of a text that starts at byte offset `n`. -/
inductive Tiles : Nat → List Char → List Scanned → Prop
  | nil {n : Nat} : Tiles n [] []
  | blank {n : Nat} {c : Char} {cs : List Char} {xs : List Scanned} (hc : Text.isBlank c) (hlf : c ≠ '\n')
      (h : Tiles (n + c.utf8Size) cs xs) : Tiles n (c :: cs) xs
  | nameless {n : Nat} {loc : Location} {cs : List Char} {xs : List Scanned} (hloc : loc.offset = n)
      (h : Tiles (n + Char.utf8Size '@') cs xs) :
      Tiles n ('@' :: cs) (.error ⟨.missingTagName, loc⟩ :: xs)
  | token {n : Nat} {t : Token} {span slack cs : List Char} {xs : List Scanned}
      (fault : Option LexicalFault) (ht : t.Covers n span)
      (hslack : ∀ c ∈ slack, Text.isBlank c ∧ c ≠ '\n') (htakes : span ++ slack ≠ [])
      (h : Tiles (n + Text.byteLength (span ++ slack)) cs xs) :
      Tiles n (span ++ slack ++ cs)
        ((fault.map fun fault => Scanned.error ⟨fault, t.location⟩).toList ++ .token t :: xs)

theorem byteLength_pos {cs : List Char} (h : cs ≠ []) : 0 < Text.byteLength cs := by
  cases cs with
  | nil => exact absurd rfl h
  | cons c cs =>
    have hc := c.utf8Size_pos
    rw [Text.byteLength_cons]
    omega

/-! ## What tiles -/

theorem Tiles.blanks {n : Nat} {gap cs : List Char} {xs : List Scanned}
    (hgap : ∀ c ∈ gap, Text.isBlank c ∧ c ≠ '\n') (h : Tiles (n + Text.byteLength gap) cs xs) :
    Tiles n (gap ++ cs) xs := by
  induction gap generalizing n with
  | nil => exact h
  | cons c gap ih =>
    have hc := hgap c List.mem_cons_self
    refine .blank hc.1 hc.2 (ih (fun c hc => hgap c (List.mem_cons_of_mem _ hc)) ?_)
    rwa [Nat.add_assoc, ← Text.byteLength_cons]

theorem Tiles.of_covers {n : Nat} {t : Token} {span cs : List Char} {xs : List Scanned}
    (fault : Option LexicalFault) (ht : t.Covers n span) (hne : span ≠ [])
    (h : Tiles (n + Text.byteLength span) cs xs) :
    Tiles n (span ++ cs)
      ((fault.map fun fault => Scanned.error ⟨fault, t.location⟩).toList ++ .token t :: xs) := by
  rw [← List.append_nil span] at hne h
  have htiles := Tiles.token fault ht (List.forall_mem_nil _) hne h
  rwa [List.append_nil] at htiles

section
variable {d : Dialect} {loc : Location} {cs : List Char} {xs : List Scanned}

theorem tiles_ofLexeme {lx : Lexeme} (haccounted : lx.Accounted) (htakes : lx.span ++ lx.slack ≠ [])
    (hlf : '\n' ∉ lx.span ++ lx.slack)
    (h : Tiles (loc.offset + Text.byteLength (lx.span ++ lx.slack)) cs xs) :
    Tiles loc.offset (lx.span ++ lx.slack ++ cs) (ofLexeme loc lx ++ xs) := by
  cases haccounted with
  | nameless => exact .nameless rfl h
  | @token kind text span slack rest fault hkind hslack hdecodes =>
    have hcovers : Token.Covers ⟨kind, String.ofList text, loc, (loc.past span).offset, none⟩
        loc.offset span :=
      { offset := rfl
        stop := Location.offset_past loc span
        decodes := hdecodes loc _
        not_eof := hkind
        lineFeed := fun hspan => absurd (List.mem_append_left _ hspan) hlf }
    have hblanks : ∀ c ∈ slack, Text.isBlank c ∧ c ≠ '\n' := fun c hc =>
      ⟨hslack c hc, fun heq => hlf (List.mem_append_right _ (heq ▸ hc))⟩
    have htiles := Tiles.token fault hcovers hblanks htakes h
    rwa [← List.singleton_append, ← List.append_assoc] at htiles

theorem isBlank_of_isGap {c : Char} (h : isGap c) : Text.isBlank c ∧ c ≠ '\n' := by
  simp only [isGap, Bool.or_eq_true, decide_eq_true_eq] at h
  rcases h with (rfl | rfl) | rfl <;> decide

theorem tiles_ofBody (hd : ∀ s ∈ d.spellings, s.kind.isKeyword) {place : Place} {afterBlank : Bool}
    {body : List Char} (hbody : '\n' ∉ body)
    (h : Tiles (loc.offset + Text.byteLength body) cs xs) :
    Tiles loc.offset (body ++ cs) (ofBody d place afterBlank loc body ++ xs) := by
  fun_induction ofBody d place afterBlank loc body with
  | case1 place afterBlank loc body hdrop =>
    refine .blanks (fun c hc => isBlank_of_isGap ?_) h
    exact List.dropWhile_eq_nil_iff.1 hdrop c hc
  | case2 place afterBlank loc body gap c tail hdrop loc' lx shorter ih =>
    have htakes : lx.Takes c tail := Lexeme.takes_take d place _ c tail
    have hcut : body = gap ++ (lx.span ++ lx.slack ++ lx.rest) := by
      rw [htakes.append_rest, ← hdrop]
      exact List.takeWhile_append_dropWhile.symm
    have hne : lx.span ++ lx.slack ≠ [] := by
      rcases htakes with ⟨_, hspan, -⟩
      rw [hspan]
      exact List.cons_ne_nil _ _
    have hgap : ∀ c ∈ gap, Text.isBlank c ∧ c ≠ '\n' := fun c hc =>
      isBlank_of_isGap (List.mem_takeWhile_imp hc)
    rw [hcut] at hbody h
    simp only [List.mem_append, not_or] at hbody
    -- The gap, what the lexeme takes, and the rest that the recursion goes on with.
    rw [hcut, List.append_assoc gap, List.append_assoc _ lx.rest, List.append_assoc _ _ xs]
    refine .blanks hgap ?_
    rw [← Location.offset_past]
    refine tiles_ofLexeme (Lexeme.accounted_take hd _ _ _ _) hne ?_ ?_
    · exact fun hmem => (List.mem_append.1 hmem).elim hbody.2.1.1 hbody.2.1.2
    · rw [← Location.offset_past]
      refine ih hbody.2.2 ?_
      rwa [Location.offset_past, Location.offset_past, Nat.add_assoc, Nat.add_assoc,
        ← Text.byteLength_append, ← Text.byteLength_append]

theorem tiles_ofEnding {ending : Text.LineEnd}
    (h : Tiles (loc.offset + Text.byteLength ending.chars) cs xs) :
    Tiles loc.offset (ending.chars ++ cs) (ofEnding loc ending ++ xs) := by
  have hnewline : ending.chars = ['\n'] ∨ ending.chars = ['\r', '\n'] →
      Tiles loc.offset (ending.chars ++ cs)
        (.token ⟨.newline, "\n", loc, (loc.past ending.chars).offset, none⟩ :: xs) := by
    intro hending
    have hcovers : Token.Covers ⟨.newline, "\n", loc, (loc.past ending.chars).offset, none⟩
        loc.offset ending.chars :=
      { offset := rfl
        stop := Location.offset_past loc _
        decodes := ⟨rfl, hending⟩
        not_eof := by simp
        lineFeed := fun _ => Or.inl rfl }
    exact .of_covers none hcovers (by rcases hending with h | h <;> simp [h]) h
  cases ending with
  | lf => exact hnewline (Or.inl rfl)
  | crlf => exact hnewline (Or.inr rfl)
  | missing => exact h

theorem tiles_fence {f : Fence} {content tail : List Char} {ending : Text.LineEnd}
    (fault : Option LexicalFault) (hindent : ∀ c ∈ f.indent, Text.isBlank c ∧ c ≠ '\n')
    (hdecodes : Token.Decodes ⟨.docString, String.ofList content, loc.past f.indent,
      ((loc.past f.indent).past (f.openingSpan ++ tail)).offset, f.contentType⟩ (f.openingSpan ++ tail))
    (h : Tiles (loc.past (f.indent ++ (f.openingSpan ++ tail) ++ ending.chars)).offset cs xs) :
    Tiles loc.offset (f.indent ++ (f.openingSpan ++ tail) ++ ending.chars ++ cs)
      ((fault.map fun fault => Scanned.error ⟨fault, loc.past f.indent⟩).toList ++
        f.token (loc.past f.indent) content (f.openingSpan ++ tail) ::
          (ofEnding ((loc.past f.indent).past (f.openingSpan ++ tail)) ending ++ xs)) := by
  have hcovers : Token.Covers ⟨.docString, String.ofList content, loc.past f.indent,
      ((loc.past f.indent).past (f.openingSpan ++ tail)).offset, f.contentType⟩ (loc.past f.indent).offset
      (f.openingSpan ++ tail) :=
    { offset := rfl
      stop := Location.offset_past _ _
      decodes := hdecodes
      not_eof := by simp
      lineFeed := fun _ => Or.inr rfl }
  rw [List.append_assoc f.indent, List.append_assoc f.indent, List.append_assoc _ ending.chars]
  refine .blanks hindent ?_
  rw [← Location.offset_past]
  refine .of_covers fault hcovers (List.cons_ne_nil _ _) ?_
  rw [← Location.offset_past]
  refine tiles_ofEnding ?_
  rwa [← Location.offset_past, ← Location.past_append, ← Location.past_append,
    ← List.append_assoc f.indent]

theorem cut?_spec {p : Text.Line → Bool} {ls before after : List Text.Line} {found : Text.Line}
    (h : cut? p ls = some (before, found, after)) : p found ∧ ∀ l ∈ before, ¬ p l := by
  fun_induction cut? p ls generalizing before found after with
  | case1 => simp at h
  | case2 l ls hl =>
    simp only [Option.some.injEq, Prod.mk.injEq] at h
    obtain ⟨rfl, rfl, -⟩ := h
    exact ⟨hl, by simp⟩
  | case3 l ls hl ih =>
    rcases Option.map_eq_some_iff.1 h with ⟨⟨_, _, _⟩, hcut, hparts⟩
    simp only [Prod.mk.injEq] at hparts
    obtain ⟨rfl, rfl, -⟩ := hparts
    rcases ih hcut with ⟨hfound, hbefore⟩
    exact ⟨hfound, List.forall_mem_cons.2 ⟨hl, hbefore⟩⟩

/-- What a line yields accounts for the line and the lines that it takes. -/
theorem tiles_line (hd : ∀ s ∈ d.spellings, s.kind.isKeyword) {afterBlank : Bool} {l : Text.Line}
    {ls : List Text.Line} (hcut : Text.WellCut (l :: ls))
    (h : Tiles (advance loc l (line d loc afterBlank l ls).taken).offset cs xs) :
    Tiles loc.offset (l.chars ++ (line d loc afterBlank l ls).taken.flatMap Text.Line.chars ++ cs)
      ((line d loc afterBlank l ls).results ++ xs) := by
  unfold line advance at h
  unfold line
  cases hfence : fence? l with
  | none =>
    rw [hfence] at h
    dsimp only at h ⊢
    rw [List.flatMap_nil, List.append_nil, Text.Line.chars, List.append_assoc l.body,
      List.append_assoc _ _ xs]
    refine tiles_ofBody hd hcut.1 ?_
    rw [← Location.offset_past]
    refine tiles_ofEnding ?_
    rwa [← Location.offset_past, ← Location.past_append, ← Text.Line.chars,
      ← List.append_nil l.chars]
  | some f =>
    rw [hfence] at h
    dsimp only at h ⊢
    rcases body_eq_of_fence? hfence with ⟨hbody, hindent⟩
    have hgap : ∀ c ∈ f.indent, Text.isBlank c ∧ c ≠ '\n' := by
      rw [hindent]
      exact fun c hc => isBlank_of_isGap (List.mem_takeWhile_imp hc)
    have hannotation : '\n' ∉ f.annotation := by
      intro hlf
      refine hcut.1 ?_
      rw [hbody]
      exact List.mem_append_right _ (List.mem_append_right _ hlf)
    cases hclosed : cut? (fun l => f.delimiter.closes l.body) ls with
    | some found =>
      rcases found with ⟨inner, closer, rest⟩
      rw [hclosed] at h
      dsimp only at h ⊢
      rcases cut?_spec hclosed with ⟨hcloser, hinner⟩
      let tail := l.ending.chars ++ inner.flatMap Text.Line.chars ++ closer.body
      have hspan : f.openingSpan ++ l.ending.chars ++ inner.flatMap Text.Line.chars ++ closer.body =
          f.openingSpan ++ tail := by simp [tail]
      have hchars : l.chars ++ (inner ++ [closer]).flatMap Text.Line.chars =
          f.indent ++ (f.openingSpan ++ tail) ++ closer.ending.chars := by
        simp [tail, Text.Line.chars, hbody]
      rw [hchars] at h ⊢
      rw [hspan]
      exact tiles_fence none hgap ⟨f.delimiter, f.annotation, tail, rfl, hannotation,
        Or.inr ⟨l.ending, inner, closer.body, rfl, hcloser, hinner, String.toList_ofList⟩⟩ h
    | none =>
      rw [hclosed] at h
      dsimp only at h ⊢
      have hchars : l.chars = f.indent ++ f.openingSpan ++ l.ending.chars := by
        rw [← hbody, Text.Line.chars]
      -- The span is the opening line, and nothing follows on from it.
      rw [List.flatMap_nil, List.append_nil, hchars, ← List.append_nil f.openingSpan] at h ⊢
      exact tiles_fence (some .unterminatedDocString) hgap
        ⟨f.delimiter, f.annotation, [], rfl, hannotation, Or.inl ⟨rfl, rfl⟩⟩ h

/-- The results of lines account for the lines, and the end of the source follows them. -/
theorem exists_tiles_lines (hd : ∀ s ∈ d.spellings, s.kind.isKeyword) (loc : Location)
    (afterBlank : Bool) {ls : List Text.Line} (hcut : Text.WellCut ls) :
    ∃ xs finish, lines d loc afterBlank ls = xs ++ [.token ⟨.eof, "", finish, finish.offset, none⟩] ∧
      finish.offset = loc.offset + Text.byteLength (ls.flatMap Text.Line.chars) ∧
      Tiles loc.offset (ls.flatMap Text.Line.chars) xs := by
  fun_induction lines d loc afterBlank ls with
  | case1 loc afterBlank => exact ⟨[], loc, rfl, rfl, .nil⟩
  | case2 loc afterBlank l ls step fewer ih =>
    have hls : step.taken ++ step.rest = ls := line_taken_append_rest d loc afterBlank l ls
    have hchars : (l :: ls).flatMap Text.Line.chars = l.chars ++ step.taken.flatMap Text.Line.chars ++
        step.rest.flatMap Text.Line.chars := by
      rw [List.flatMap_cons, ← hls, List.flatMap_append, List.append_assoc]
    have hrest : Text.WellCut step.rest := by
      have hcut' := hcut.2.2
      rw [← hls] at hcut'
      exact Text.wellCut_of_append hcut'
    -- What tiles the later lines is what follows in the source after this one.
    rcases ih hrest with ⟨xs, finish, hresults, hfinish, htiles⟩
    refine ⟨step.results ++ xs, finish, by rw [hresults, List.append_assoc], ?_, ?_⟩
    · rw [hfinish, advance, Location.offset_past, hchars, Text.byteLength_append _ (step.rest.flatMap _),
        Nat.add_assoc]
    · rw [hchars]
      exact tiles_line hd hcut htiles

end

end Scan

end Gherkin
