import Gherkin.Proofs.Document.Commenting
import Gherkin.Proofs.Document.ErrorOrder
import Gherkin.Proofs.Document.Joining
import Gherkin.Proofs.Document.Transfer
import Gherkin.Proofs.Token.CommentLines

/-!
# Comment lines do not matter

A source with a comment line put in holds the document that it holds without it, or is refused for the same
faults, and only the places behind the comment line tell the two apart.
-/

namespace Gherkin

/-! ## Places -/

namespace Location

/-- The place when a line is put in behind a text: what stands there or further on is pushed on. -/
def pushed (before line : List Char) (loc : Location) : Location :=
  if (start.behind before).le loc then loc.moved 1 (Text.byteLength line) else loc

theorem le_pushed (before line : List Char) (a b : Location) :
    (pushed before line a).le (pushed before line b) = a.le b := by
  rw [Bool.eq_iff_iff]
  unfold pushed
  -- Of two places only the one behind may move, so they are as far apart as before or farther.
  by_cases ha : (start.behind before).le a
  · by_cases hb : (start.behind before).le b
    · rw [if_pos ha, if_pos hb, le_iff, le_iff]
      simp only [moved]
      omega
    · rw [if_pos ha, if_neg hb]
      simp only [le_iff] at *
      simp only [moved]
      omega
  · by_cases hb : (start.behind before).le b
    · rw [if_neg ha, if_pos hb]
      simp only [le_iff] at *
      simp only [moved]
      omega
    · rw [if_neg ha, if_neg hb]

theorem le_past (loc : Location) (cs : List Char) : loc.le (loc.past cs) = true := by
  induction cs generalizing loc with
  | nil => simp [le]
  | cons c cs ih =>
    have hnext : loc.le (loc.next c) = true := by
      unfold next
      by_cases hc : c = '\n'
      · simp [le, hc]
      · simp [le, hc]
    exact le_trans _ _ _ hnext (ih (loc.next c))

variable {before : List Char} (line : List Char)

theorem pushed_past (cs : List Char) : pushed before line ((start.behind before).past cs) =
    ((start.behind before).past cs).moved 1 (Text.byteLength line) :=
  if_pos (le_past _ cs)

/-- A place in whole lines stays where it is when a line is put in behind them. -/
theorem Marks.pushed_eq {loc : Location} (h : loc.Marks before) (hlast : before.getLast? = some '\n')
    (hoffset : loc.offset < Text.byteLength before) : pushed before line loc = loc := by
  obtain ⟨mark, lines, front, after, rfl, -, -, -, hline, -, hbytes⟩ := h
  have hne : after ≠ [] := by
    rintro rfl
    rw [hbytes, List.append_nil] at hoffset
    exact Nat.lt_irrefl _ hoffset
  rw [List.getLast?_append_of_ne_nil _ hne] at hlast
  -- A line feed stands between the place and the boundary.
  have hpos : 0 < after.count '\n' := List.count_pos_iff.2 (List.mem_of_getLast? hlast)
  refine if_neg ?_
  rw [le_iff]
  simp only [behind, moved, start, List.count_append]
  omega

end Location

/-! ## Tokens on either side -/

namespace Reader

variable {source : String}

/-- Whole lines end with a line end, and every token before it stops before the end of the source. -/
theorem exists_live_concat (hlast : source.toList.getLast? = some '\n') :
    ∃ ts n, live (tokens .english source) = ts ++ [n] ∧ n.kind = .newline ∧
      ∀ t ∈ ts, t.stop < Text.byteLength source.toList := by
  obtain ⟨n, hn, hkind⟩ := getLast?_live hlast
  obtain ⟨ts, hts⟩ := List.getLast?_eq_some_iff.1 hn
  refine ⟨ts, n, hts, hkind, fun t ht => ?_⟩
  have hpairs := pairwise_stop_live source
  rw [hts] at hpairs
  have hstop := (List.pairwise_append.1 hpairs).2.2 t ht n List.mem_cons_self
  have hoffset : n.location.offset < Text.byteLength source.toList :=
    offset_lt_of_mem_live (by rw [hts]; simp)
  exact Nat.lt_of_le_of_lt hstop hoffset

end Reader

namespace View

def commented (before line after : List Char) : View where
  source := before ++ after
  target := before ++ (line ++ after)
  place := Location.pushed before line
  stop n := if n < Text.byteLength before then n else n + Text.byteLength line

section
variable {before : String} {t : Token} (line after : List Char)
  (hlast : before.toList.getLast? = some '\n') (ht : t ∈ Reader.live (tokens .english before))
include hlast ht

theorem commented_token_of_mem_live (hstop : t.stop < Text.byteLength before.toList) :
    (commented before.toList line after).token t = t := by
  have hlocation : (commented before.toList line after).place t.location = t.location :=
    (marks_of_mem_tokens (Reader.mem_tokens_of_mem_live ht)).pushed_eq _ hlast
      (Reader.offset_lt_of_mem_live ht)
  have hstop' : (commented before.toList line after).stop t.stop = t.stop := if_pos hstop
  unfold token
  rw [hlocation, hstop']

theorem shows_commented_of_mem_live : (commented before.toList line after).Shows t := by
  have hoffset := Reader.offset_lt_of_mem_live ht
  obtain ⟨ts, n, hlive, hn, hts⟩ := Reader.exists_live_concat hlast
  rw [hlive] at ht
  rcases List.mem_append.1 ht with ht' | ht'
  · have hstop := hts t ht'
    have htoken := commented_token_of_mem_live line after hlast (hlive ▸ ht) hstop
    have hshows := fun more => shows_front (t := t) more hlast hoffset fun _ => hstop
    refine ⟨fun hk => ?_, fun hk => ?_, fun hk => ?_⟩
    · rw [htoken]
      exact ((hshows (line ++ after)).title hk).trans ((hshows after).title hk).symm
    · rw [htoken]
      exact ((hshows (line ++ after)).line hk).trans ((hshows after).line hk).symm
    · rw [htoken]
      exact ((hshows (line ++ after)).docString hk).trans ((hshows after).docString hk).symm
  · -- The line end before the comment line says nothing.
    obtain rfl := List.mem_singleton.1 ht'
    exact ⟨fun hk => by simp [hn, TokenKind.isKeyword, TokenKind.isBlock, TokenKind.isStep] at hk,
      fun hk => by simp [hn, TokenKind.isInline] at hk, fun hk => by simp [hn] at hk⟩

end

section
variable {before after : String} {t : Token} (line : List Char)
  (ht : t ∈ tokens .english (before ++ after))
  (hbehind : ∃ cs, t.location = (Location.start.behind before.toList).past cs)
include ht hbehind

theorem le_of_behind : Text.byteLength before.toList ≤ t.location.offset ∧
    Text.byteLength before.toList ≤ t.stop := by
  obtain ⟨cs, hlocation⟩ := hbehind
  obtain ⟨span, rest, -, hstop⟩ := Token.exists_span ht
  have hoffset : t.location.offset = 0 + Text.byteLength before.toList + Text.byteLength cs := by
    rw [hlocation, Location.offset_past]
    rfl
  rw [hstop, Location.offset_past, hoffset]
  omega

theorem commented_token_of_behind : (commented before.toList line after.toList).token t =
    t.moved 1 (Text.byteLength line) := by
  have hstop : (commented before.toList line after.toList).stop t.stop = t.stop + Text.byteLength line :=
    if_neg (Nat.not_lt.2 (le_of_behind ht hbehind).2)
  obtain ⟨cs, hlocation⟩ := hbehind
  have hplace : (commented before.toList line after.toList).place t.location =
      t.location.moved 1 (Text.byteLength line) := by
    rw [hlocation]
    exact Location.pushed_past line cs
  unfold token
  rw [hplace, hstop]
  rfl

theorem shows_commented_of_behind : (commented before.toList line after.toList).Shows t := by
  obtain ⟨hoffset, hstop⟩ := le_of_behind ht hbehind
  -- Behind the boundary both sources hold the same text, so much further on in the target.
  have hdrop : ∀ {n}, Text.byteLength before.toList ≤ n →
      Text.dropBytes? (n + Text.byteLength line) (before.toList ++ (line ++ after.toList)) =
        Text.dropBytes? n (before.toList ++ after.toList) := by
    intro n hn
    obtain ⟨k, rfl⟩ := Nat.exists_eq_add_of_le' hn
    rw [Nat.add_right_comm, Text.dropBytes?_add, Text.dropBytes?_add, Text.dropBytes?_add]
  have htext : ∀ {n}, Text.byteLength before.toList ≤ n →
      Reader.textFrom (before.toList ++ (line ++ after.toList)) (n + Text.byteLength line) =
        Reader.textFrom (before.toList ++ after.toList) n := by
    intro n hn
    unfold Reader.textFrom
    rw [hdrop hn]
  have htoken := commented_token_of_behind line ht hbehind
  refine ⟨fun _ => ?_, fun _ => ?_, fun _ => ?_⟩
  · rw [htoken]
    exact htext hstop
  · rw [htoken]
    exact htext hoffset
  · rw [htoken]
    refine Reader.docString_congr rfl rfl ?_
    exact congrArg (fun rest => (rest.bind (Text.dropWord? Delimiter.backticks.chars)).isSome) (hdrop hoffset)

end

end View

/-! ## Documents -/

section
variable {before line after : String} (hstart : Scan.StartsLine before.toList after.toList)
  (hline : Text.IsCommentLine line.toList)
  (hinside : ∀ t ∈ tokens .english (before ++ after), ¬ t.Encloses (Text.byteLength before.toList))
  (hquote : before.toList = [Scan.byteOrderMark] → after.toList.head? ≠ some '\'')
include hstart hline hinside hquote

/-- The tokens and the faults of a source on either side of a comment line. -/
theorem exists_tokens_commented : ∃ us es c n, c.kind = .comment ∧ n.kind = .newline ∧
    let m := Text.byteLength line.toList
    let ts := Reader.live (tokens .english before)
    (ts = [] ∧ lexicalErrors .english before = [] ∨ before.toList.getLast? = some '\n') ∧
    tokens .english (before ++ after) = ts ++ us ∧
    tokens .english (before ++ line ++ after) = ts ++ c :: n :: us.map (Token.moved 1 m) ∧
    lexicalErrors .english (before ++ after) = lexicalErrors .english before ++ es ∧
    lexicalErrors .english (before ++ line ++ after) =
      lexicalErrors .english before ++ es.map (LexicalError.moved 1 m) ∧
    (∀ u ∈ us, ∃ cs, u.location = (Location.start.behind before.toList).past cs) ∧
    ∀ e ∈ es, ∃ cs, e.location = (Location.start.behind before.toList).past cs := by
  obtain ⟨xs, c, n, hc, hn, hxs, hbefore, hafter, hall⟩ :=
    Scan.exists_all_commented hstart hline hinside hquote
  generalize hbehind : Scan.lines .english (Location.start.behind before.toList) true
    (Text.lines after.toList) = behind at hafter hall
  have hlive := Reader.live_eq (tokens_of_all_eq hbefore)
  have herrors := lexicalErrors_of_all_eq hbefore
  -- What stands behind the comment line starts where the line did, and everything there is on from it.
  have hpast : ∀ x ∈ behind, ∃ cs, x.location = (Location.start.behind before.toList).past cs := by
    intro x hx
    rw [← hbehind] at hx
    exact Scan.exists_past_of_mem_lines hx
  refine ⟨behind.filterMap Scanned.token?, behind.filterMap Scanned.error?, c, n, hc, hn, ?_, ?_, ?_, ?_, ?_,
    fun u hu => ?_, fun e he => ?_⟩
  · rw [hlive, herrors]
    exact hxs.imp_left fun hnil => by
      rw [hnil]
      exact ⟨rfl, rfl⟩
  · rw [hlive, tokens, hafter, List.filterMap_append]
  · rw [hlive, tokens, hall, List.filterMap_append, ← Scanned.token?_moved]
    rfl
  · rw [herrors, lexicalErrors, hafter, List.filterMap_append]
  · rw [herrors, lexicalErrors, hall, List.filterMap_append, ← Scanned.error?_moved]
    rfl
  · exact hpast _ (Scanned.mem_tokens_iff.1 hu)
  · exact hpast _ (Scanned.mem_errors_iff.1 he)

/-- The tokens with the comment line are read as those without it, at the places where they come back. -/
theorem Parsed.ofTokens_commented_map :
    Parsed.ofTokens (before ++ line ++ after) (tokens .english (before ++ line ++ after)) =
      Parsed.ofTokens (before ++ line ++ after) ((tokens .english (before ++ after)).map
        (View.commented before.toList line.toList after.toList).token) := by
  obtain ⟨us, -, c, n, hc, hn, hlast, hafter, hall, -, -, hbehind, -⟩ :=
    exists_tokens_commented hstart hline hinside hquote
  have hus : ∀ u ∈ us, u ∈ tokens .english (before ++ after) := fun u hu => by
    rw [hafter]
    exact List.mem_append_right _ hu
  have hmoved : us.map (View.commented before.toList line.toList after.toList).token =
      us.map (Token.moved 1 (Text.byteLength line.toList)) :=
    List.map_congr_left fun u hu => View.commented_token_of_behind line.toList (hus u hu) (hbehind u hu)
  have heof : ∃ t ∈ (tokens .english (before ++ after)).map
      (View.commented before.toList line.toList after.toList).token, t.kind = .eof := by
    obtain ⟨finish, hfinish, heof, -⟩ := Reader.laid_live (before ++ after)
    refine ⟨_, List.mem_map_of_mem (a := finish) ?_, heof⟩
    rw [hfinish]
    simp
  rcases hlast with ⟨hnil, -⟩ | hlast
  · -- Nothing stands before the comment line.
    rw [hnil, List.nil_append] at hafter hall
    obtain ⟨finish, hfinish, hkind⟩ := heof
    rw [hall, ← hmoved, ← hafter,
      ofTokens_cons_of_isGap (Reader.isGap_of_comment hc) ⟨finish, List.mem_cons_of_mem n hfinish, hkind⟩,
      ofTokens_cons_of_isGap (Reader.isGap_of_newline hn) ⟨finish, hfinish, hkind⟩]
  · -- The line end in front stops where the boundary is, so it alone may come back changed.
    obtain ⟨ts, n', hlive, hn', hts⟩ := Reader.exists_live_concat hlast
    have hsame : ts.map (View.commented before.toList line.toList after.toList).token = ts.map id := by
      refine List.map_congr_left fun t ht => ?_
      refine View.commented_token_of_mem_live _ _ hlast ?_ (hts t ht)
      rw [hlive]
      exact List.mem_append_left _ ht
    refine Parsed.ofTokens_commented ?_ heof
    rw [hafter, hall, hlive, List.map_append, List.map_append, List.map_singleton, hsame, hmoved,
      List.map_id, List.append_assoc, List.append_assoc]
    exact .append_left ts (.here hn' hn' hc hn)

/-- The document of a source with the comment line put in. -/
theorem Parsed.ofTokens_with_comment :
    Parsed.ofTokens (before ++ line ++ after) (tokens .english (before ++ line ++ after)) =
      match Parsed.ofTokens (before ++ after) (tokens .english (before ++ after)) with
      | .ok p => .ok (p.relocate (Location.pushed before.toList line.toList))
      | .error errors =>
        .error (errors.map (ParseError.relocate (Location.pushed before.toList line.toList))) := by
  obtain ⟨us, -, c, n, hc, hn, hlast, hafter, hall, -, -, hbehind, -⟩ :=
    exists_tokens_commented hstart hline hinside hquote
  have hshows : ∀ t ∈ tokens .english (before ++ after),
      (View.commented before.toList line.toList after.toList).Shows t := by
    intro t ht
    have ht' := ht
    rw [hafter] at ht'
    rcases List.mem_append.1 ht' with hfront | hback
    · refine View.shows_commented_of_mem_live line.toList after.toList ?_ hfront
      exact hlast.resolve_left fun hnil => List.ne_nil_of_mem hfront hnil.1
    · exact View.shows_commented_of_behind line.toList ht (hbehind t hback)
  rw [ofTokens_commented_map hstart hline hinside hquote]
  refine ofTokens_map String.toList_append ?_ ?_ hshows
  · rw [String.append_assoc, String.toList_append, String.toList_append]
    rfl
  · obtain ⟨finish, hfinish, -⟩ := Reader.laid_live (before ++ after)
    rw [hfinish]
    simp

/-- The faults of a source with the comment line put in. -/
theorem ParseError.ofLexical_with_comment :
    (lexicalErrors .english (before ++ line ++ after)).map ofLexical =
      ((lexicalErrors .english (before ++ after)).map ofLexical).map
        (relocate (Location.pushed before.toList line.toList)) := by
  obtain ⟨-, es, -, -, -, -, hlast, -, -, hafter, hall, -, hbehind⟩ :=
    exists_tokens_commented hstart hline hinside hquote
  have hfront : ∀ e ∈ lexicalErrors .english before,
      Location.pushed before.toList line.toList e.location = e.location := by
    intro e he
    have hlast' := hlast.resolve_left fun hnil => List.ne_nil_of_mem he hnil.2
    exact (marks_of_mem_lexicalErrors he).pushed_eq _ hlast' (Reader.offset_lt_of_mem_lexicalErrors he)
  have hback : ∀ e ∈ es, Location.pushed before.toList line.toList e.location =
      e.location.moved 1 (Text.byteLength line.toList) := by
    intro e he
    obtain ⟨cs, hlocation⟩ := hbehind e he
    rw [hlocation, Location.pushed_past]
  rw [hall, hafter, List.map_append, List.map_append, List.map_append, List.map_map, List.map_map, List.map_map]
  congr 1
  · exact List.map_congr_left fun e he => congrArg (ParseError.mk (.lexical e.fault)) (hfront e he).symm
  · exact List.map_congr_left fun e he => congrArg (ParseError.mk (.lexical e.fault)) (hback e he).symm

end

/-- A comment line makes no difference.  Put in where a line starts, outside of doc strings and not between the
mark that opens a source and a single quote, it leaves the same document or the same failure, and the same
faults in the same order.  What is located from there on is one line and the bytes of the line further on, and
all else stays where it is. -/
theorem parse_with_comment {before line after : String}
    (hstart : Scan.StartsLine before.toList after.toList) (hline : Text.IsCommentLine line.toList)
    (hinside : ∀ t ∈ tokens .english (before ++ after), ¬ t.Encloses (Text.byteLength before.toList))
    (hquote : before.toList = [Scan.byteOrderMark] → after.toList.head? ≠ some '\'') :
    parse (before ++ line ++ after) =
      match parse (before ++ after) with
      | .ok p => .ok (p.relocate (Location.pushed before.toList line.toList))
      | .error errors =>
        .error (errors.map (ParseError.relocate (Location.pushed before.toList line.toList))) := by
  have horder := ParseError.inOrder_map (Location.le_pushed before.toList line.toList)
  unfold parse
  dsimp only
  rw [Parsed.ofTokens_with_comment hstart hline hinside hquote,
    ParseError.ofLexical_with_comment hstart hline hinside hquote]
  cases Parsed.ofTokens (before ++ after) (tokens .english (before ++ after)) with
  | ok p =>
    dsimp only [Parsed.relocate]
    rw [← List.map_append, horder]
  | error errors =>
    dsimp only
    rw [← List.map_append, horder]

set_option maxRecDepth 4000 in
/-- A comment in a description with a blank line, before a doc string without an end. -/
theorem parse_with_comment_of_description :
    Scan.StartsLine "Feature: f\na\n\n".toList "b\n\"\"\"\n".toList ∧
      Text.IsCommentLine " # c\n".toList ∧
      (∀ t ∈ tokens .english ("Feature: f\na\n\n" ++ "b\n\"\"\"\n"), ¬ t.Encloses 14) ∧
      parse ("Feature: f\na\n\n" ++ " # c\n" ++ "b\n\"\"\"\n") =
        .ok ⟨⟨"f", some "a\n\nb", [], none, [], ⟨1, 1, 0⟩⟩,
          [⟨.order (.unexpected .docString), ⟨6, 1, 21⟩⟩, ⟨.lexical .unterminatedDocString, ⟨6, 1, 21⟩⟩]⟩ := by
  have hstart : Scan.StartsLine "Feature: f\na\n\n".toList "b\n\"\"\"\n".toList :=
    Or.inr (Or.inr (by decide))
  have hline : Text.IsCommentLine " # c\n".toList :=
    ⟨[' '], [' ', 'c'], by decide, by simp, by decide, by decide⟩
  have hsource : "Feature: f\na\n\n" ++ "b\n\"\"\"\n" = "Feature: f\na\n\nb\n\"\"\"\n" := by decide
  have hdocs : (tokens .english "Feature: f\na\n\nb\n\"\"\"\n").all
      fun t => t.kind ≠ .docString ∨ 14 ≤ t.location.offset := by cbv
  have hinside : ∀ t ∈ tokens .english ("Feature: f\na\n\n" ++ "b\n\"\"\"\n"), ¬ t.Encloses 14 := by
    intro t ht hencloses
    rw [hsource] at ht
    rcases of_decide_eq_true (List.all_eq_true.1 hdocs t ht) with hkind | hoffset
    · exact hkind hencloses.docString
    · exact Nat.not_lt.2 hoffset hencloses.starts
  refine ⟨hstart, hline, hinside, ?_⟩
  rw [parse_with_comment hstart hline hinside (by decide), hsource, parse_eq]
  cbv

set_option maxRecDepth 4000 in
/-- Behind the mark a single quote opens no quoted string, but behind a comment line it does. -/
theorem exists_parse_with_comment_ne : ∃ before line after : String,
    Scan.StartsLine before.toList after.toList ∧ Text.IsCommentLine line.toList ∧
      (∀ t ∈ tokens .english (before ++ after), ¬ t.Encloses (Text.byteLength before.toList)) ∧
      parse (before ++ line ++ after) ≠
        match parse (before ++ after) with
        | .ok p => .ok (p.relocate (Location.pushed before.toList line.toList))
        | .error errors =>
          .error (errors.map (ParseError.relocate (Location.pushed before.toList line.toList))) := by
  have hwithout : parse ("\uFEFF" ++ "'a'\nFeature: f\n") = .ok ⟨⟨"f", none, [], none, [], ⟨2, 1, 7⟩⟩,
      [⟨.order (.missingFeature (some .text)), ⟨1, 1, 3⟩⟩]⟩ := by
    rw [parse_eq]
    cbv
  have hwith : parse ("\uFEFF" ++ "#\n" ++ "'a'\nFeature: f\n") =
      .ok ⟨⟨"f", none, [], none, [], ⟨3, 1, 9⟩⟩,
        [⟨.order (.missingFeature (some .quotedString)), ⟨2, 1, 5⟩⟩]⟩ := by
    rw [parse_eq]
    cbv
  have hdocs : (tokens .english ("\uFEFF" ++ "'a'\nFeature: f\n")).all fun t => t.kind ≠ .docString := by cbv
  refine ⟨"\uFEFF", "#\n", "'a'\nFeature: f\n", Or.inr (Or.inl (by decide)),
    ⟨[], [], by decide, by simp, by decide, by decide⟩, fun t ht hencloses => ?_, ?_⟩
  · exact of_decide_eq_true (List.all_eq_true.1 hdocs t ht) hencloses.docString
  · rw [hwithout, hwith]
    decide

end Gherkin
