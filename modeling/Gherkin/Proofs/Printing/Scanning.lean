import Gherkin.Proofs.Printing.Printable
import Gherkin.Proofs.Printing.Rows

/-!
# Scanning printed lines

What the first lexeme of a line is when the line starts with a keyword, a tag, a row or a line of a
description, and what follows it on the line.
-/

namespace Gherkin

namespace Text

theorem dropEndWhile_append_cons_of_not {p : Char → Bool} {b : Char} (h : ¬ p b) (as bs : List Char) :
    dropEndWhile p (as ++ b :: bs) = as ++ b :: dropEndWhile p bs := by
  unfold dropEndWhile
  rw [List.reverse_append, List.reverse_cons, List.append_assoc, List.singleton_append,
    List.dropWhile_append]
  by_cases hbs : (bs.reverse.dropWhile p).isEmpty
  · rw [if_pos hbs, List.dropWhile_cons_of_neg h, List.isEmpty_iff.1 hbs]
    simp
  · rw [if_neg hbs]
    simp

end Text

namespace Delimiter

theorem opening?_chars_append (d : Delimiter) (cs : List Char) :
    opening? (d.chars ++ cs) = some (d, cs) := by
  cases d <;> rfl

theorem opening?_cons_eq_none {c : Char} (hquote : c ≠ '"') (htick : c ≠ '`') (cs : List Char) :
    opening? (c :: cs) = none := by
  have hbackticks : Text.dropWord? backticks.chars (c :: cs) = none := if_neg htick.symm
  have hquotes : Text.dropWord? doubleQuotes.chars (c :: cs) = none := if_neg hquote.symm
  unfold opening?
  rw [hbackticks, hquotes]
  rfl

end Delimiter

/-! ## Keywords -/

theorem Scan.not_isGap_of_isAlphabetic {c : Char} (h : Text.isAlphabetic c) : ¬ isGap c := by
  intro hgap
  have hc : (c = ' ' ∨ c = '\t') ∨ c = '\r' := by simpa [isGap] using hgap
  rcases hc with (rfl | rfl) | rfl <;> revert h <;> decide

namespace Lexeme

/-- The keyword that is found at the front of a line takes what it is written with. -/
theorem keyword?_eq_some {d : Dialect} {c : Char} {cs written terminator tail : List Char}
    {kind : TokenKind} (hsplit : c :: cs = written ++ terminator ++ tail)
    (hne : written ++ terminator ≠ [])
    (hfound : d.precedence.findSome? (keywordBy? d (Text.dropEndWhile (· = '\r') (c :: cs))) =
      some (kind, written, terminator)) :
    keyword? d c cs =
      some { token := some (kind, written), span := written ++ terminator, rest := tail } := by
  have hlength : (written ++ terminator).length - 1 + 1 = (written ++ terminator).length :=
    Nat.sub_add_cancel (List.length_pos_iff.2 hne)
  have hspan : c :: cs.take ((written ++ terminator).length - 1) = written ++ terminator := by
    rw [← List.take_succ_cons, hlength, hsplit, List.take_left]
  have hrest : cs.drop ((written ++ terminator).length - 1) = tail := by
    rw [← List.drop_succ_cons (a := c), hlength, hsplit, List.drop_left]
  unfold keyword?
  dsimp only
  rw [hfound, Option.map_some]
  dsimp only
  rw [hspan, hrest]

theorem findSome?_header (b : Block) (cs : List Char) :
    Dialect.english.precedence.findSome? (keywordBy? .english (b.name.toList ++ ':' :: cs)) =
      some (.block b, b.name.toList, [':']) := by
  cases b <;> cbv

theorem findSome?_step (k : StepKeyword) (cs : List Char) :
    Dialect.english.precedence.findSome? (keywordBy? .english (k.name.toList ++ ' ' :: cs)) =
      some (.step k, k.name.toList, []) := by
  cases k <;> cbv

theorem keyword?_header {b : Block} {c : Char} {cs tail : List Char}
    (h : c :: cs = b.name.toList ++ ':' :: tail) :
    keyword? .english c cs = some
      { token := some (.block b, b.name.toList), span := b.name.toList ++ [':'], rest := tail } := by
  apply keyword?_eq_some
  · rw [h]
    simp
  · simp
  · rw [h, Text.dropEndWhile_append_cons_of_not (by decide)]
    exact findSome?_header b _

theorem keyword?_step {k : StepKeyword} {c : Char} {cs tail : List Char}
    (h : c :: cs = k.name.toList ++ ' ' :: tail) :
    keyword? .english c cs = some
      { token := some (.step k, k.name.toList), span := k.name.toList, rest := ' ' :: tail } := by
  have hne : k.name.toList ++ [] ≠ [] := by cases k <;> decide
  have hkeyword := @keyword?_eq_some .english c cs k.name.toList [] (' ' :: tail) (.step k)
    (by rw [h]; simp) hne
  rw [List.append_nil] at hkeyword
  apply hkeyword
  rw [h, Text.dropEndWhile_append_cons_of_not (by decide)]
  exact findSome?_step k _

theorem take_first_of_isAlphabetic (d : Dialect) (afterBlank : Bool) {c : Char} (hc : Text.isAlphabetic c)
    (cs : List Char) :
    take d .first afterBlank c cs = (keyword? d c cs).getD (inline afterBlank c cs) := by
  have hcomment : c ≠ '#' := by rintro rfl; revert hc; decide
  have htag : c ≠ '@' := by rintro rfl; revert hc; decide
  have hrow : c ≠ '|' := by rintro rfl; revert hc; decide
  unfold take
  dsimp only
  rw [if_neg hcomment, if_neg htag, if_neg hrow, if_pos hc]

theorem take_first_of_keyword? {d : Dialect} {afterBlank : Bool} {c : Char} {cs : List Char}
    {lx : Lexeme} (hc : Text.isAlphabetic c) (h : keyword? d c cs = some lx) :
    take d .first afterBlank c cs = lx := by
  rw [take_first_of_isAlphabetic d afterBlank hc, h, Option.getD_some]

theorem take_first_of_opensProse {d : Dialect} {afterBlank : Bool} {c : Char} {cs : List Char}
    (h : OpensProse d (c :: cs)) : take d .first afterBlank c cs = inline afterBlank c cs := by
  rcases h with ⟨-, -, hcomment, htag, hrow, hkeyword⟩
  unfold take
  dsimp only
  rw [if_neg hcomment, if_neg htag, if_neg hrow]
  by_cases hc : Text.isAlphabetic c
  · rw [if_pos hc, hkeyword hc, Option.getD_none]
  · rw [if_neg hc]

theorem tag_of_isTagCharacter {name rest : List Char} (hne : name ≠ [])
    (hname : ∀ c ∈ name, isTagCharacter c) (hrest : ∀ c ∈ rest.head?, ¬ isTagCharacter c) :
    tag (name ++ rest) = { token := some (.tag, '@' :: name), span := '@' :: name, rest } := by
  have htake : (name ++ rest).takeWhile isTagCharacter = name := by
    rw [List.takeWhile_append_of_pos hname]
    cases rest with
    | nil => simp
    | cons c rest => rw [List.takeWhile_cons_of_neg (hrest c rfl), List.append_nil]
  have hdrop : (name ++ rest).dropWhile isTagCharacter = rest := by
    rw [List.dropWhile_append_of_pos hname]
    cases rest with
    | nil => rfl
    | cons c rest => rw [List.dropWhile_cons_of_neg (hrest c rfl)]
  unfold tag
  dsimp only
  rw [htake, hdrop, if_neg (by simpa using hne)]

end Lexeme

theorem Lexeme.take_at {d : Dialect} {place : Place} {afterBlank : Bool} (h : place ≠ .inside)
    (cs : List Char) : take d place afterBlank '@' cs = tag cs := by
  cases place with
  | first => rfl
  | tags => rfl
  | inside => exact absurd rfl h

namespace Scan

variable {d : Dialect} {place : Place} {afterBlank : Bool} {loc : Location}

/-! ## The first lexeme of a line -/

theorem ofBody_append_cons {gap cs : List Char} {c : Char} (hgap : ∀ g ∈ gap, isGap g)
    (hc : ¬ isGap c) :
    ofBody d place afterBlank loc (gap ++ c :: cs) =
      let lx := Lexeme.take d place (afterBlank || !gap.isEmpty) c cs
      ofLexeme (loc.past gap) lx ++
        ofBody d (place.next c) ((lx.span ++ lx.slack).getLast?.all Text.isBlank)
          ((loc.past gap).past (lx.span ++ lx.slack)) lx.rest := by
  have hdrop : (gap ++ c :: cs).dropWhile isGap = c :: cs := by
    rw [List.dropWhile_append_of_pos hgap, List.dropWhile_cons_of_neg hc]
  have htake : (gap ++ c :: cs).takeWhile isGap = gap := by
    rw [List.takeWhile_append_of_pos hgap, List.takeWhile_cons_of_neg hc, List.append_nil]
  rw [ofBody_of_dropWhile_eq_cons hdrop]
  dsimp only
  rw [htake]

/-- After its first word a line holds free text. -/
theorem isInline_of_mem_ofBody {body : List Char} {t : Token}
    (h : t ∈ (ofBody d .inside afterBlank loc body).filterMap Scanned.token?) : t.kind.isInline := by
  generalize hplace : Place.inside = place at h
  fun_induction ofBody d place afterBlank loc body with
  | case1 => simp at h
  | case2 place afterBlank loc body gap c cs hdrop loc' lx shorter ih =>
    subst hplace
    rw [List.filterMap_append, List.mem_append] at h
    rcases h with h | h
    · rcases Lexeme.inline_token (afterBlank || !gap.isEmpty) c cs with ⟨kind, w, htoken, hkind⟩
      rw [tokens_ofLexeme, show lx.token = some (kind, w) from htoken] at h
      rw [List.mem_singleton.1 h]
      exact hkind
    · exact ih rfl h

theorem exists_tokens_of_keyword? {gap cs written span tail : List Char} {c : Char} {kind : TokenKind}
    (hgap : ∀ g ∈ gap, isGap g) (hc : Text.isAlphabetic c)
    (hkeyword : Lexeme.keyword? d c cs = some { token := some (kind, written), span, rest := tail }) :
    ∃ words, (ofBody d .first afterBlank loc (gap ++ c :: cs)).filterMap Scanned.token? =
        ⟨kind, String.ofList written, loc.past gap, ((loc.past gap).past span).offset, none⟩ :: words ∧
      ∀ w ∈ words, w.kind.isInline := by
  have htag : c ≠ '@' := by rintro rfl; revert hc; decide
  rw [ofBody_append_cons hgap (not_isGap_of_isAlphabetic hc), Lexeme.take_first_of_keyword? hc hkeyword,
    show Place.first.next c = .inside from if_neg htag]
  dsimp only
  rw [List.filterMap_append, tokens_ofLexeme]
  exact ⟨_, rfl, fun w hw => isInline_of_mem_ofBody hw⟩

/-- The free text of a line of a description. -/
theorem exists_tokens_of_opensProse {gap cs : List Char} (hgap : ∀ g ∈ gap, isGap g)
    (h : Lexeme.OpensProse d cs) :
    ∃ t words, (ofBody d .first afterBlank loc (gap ++ cs)).filterMap Scanned.token? = t :: words ∧
      t.kind.isInline ∧ t.location = loc.past gap ∧ ∀ w ∈ words, w.kind.isInline := by
  cases cs with
  | nil => exact absurd h id
  | cons c cs =>
    rw [ofBody_append_cons hgap h.1, Lexeme.take_first_of_opensProse h,
      show Place.first.next c = .inside from if_neg h.2.2.2.1]
    dsimp only
    rcases Lexeme.inline_token (afterBlank || !gap.isEmpty) c cs with ⟨kind, w, htoken, hkind⟩
    rw [List.filterMap_append, tokens_ofLexeme, htoken]
    exact ⟨_, _, rfl, hkind, rfl, fun w hw => isInline_of_mem_ofBody hw⟩

theorem exists_tokens_of_row {gap cs : List Char} (hgap : ∀ g ∈ gap, isGap g)
    (h : Text.trimEnd ('|' :: cs) = '|' :: cs) :
    ∃ t, (ofBody d .first afterBlank loc (gap ++ '|' :: cs)).filterMap Scanned.token? = [t] ∧
      t.kind = .tableRow ∧ t.text = String.ofList ('|' :: cs) := by
  have htake : ∀ afterBlank, Lexeme.take d .first afterBlank '|' cs = Lexeme.tableRow cs := fun _ => rfl
  rw [ofBody_append_cons hgap (by decide), htake]
  dsimp only
  rw [List.filterMap_append, tokens_ofLexeme, show (Lexeme.tableRow cs).rest = [] from rfl, ofBody_nil]
  refine ⟨_, rfl, rfl, ?_⟩
  show String.ofList (Text.trimEnd ('|' :: cs)) = _
  rw [h]

theorem exists_tokens_of_tag {gap rest : List Char} {s : String} (hgap : ∀ g ∈ gap, isGap g)
    (hplace : place ≠ .inside) (hs : IsTag s) (hrest : ∀ c ∈ rest.head?, ¬ Lexeme.isTagCharacter c) :
    ∃ (t : Token) (place' : Place) (afterBlank' : Bool) (loc' : Location),
      (ofBody d place afterBlank loc (gap ++ (s.toList ++ rest))).filterMap Scanned.token? =
        t :: (ofBody d place' afterBlank' loc' rest).filterMap Scanned.token? ∧
      t.kind = .tag ∧ t.text = s ∧ place' ≠ .inside := by
  rcases hs with ⟨name, hs, hne, hname⟩
  have hnext : place.next '@' ≠ .inside := by
    cases place with
    | first => decide
    | tags => decide
    | inside => exact absurd rfl hplace
  rw [hs, List.cons_append, ofBody_append_cons hgap (by decide), Lexeme.take_at hplace,
    Lexeme.tag_of_isTagCharacter hne hname hrest]
  dsimp only
  rw [List.filterMap_append, tokens_ofLexeme]
  have htext : String.ofList ('@' :: name) = s := by rw [← hs, String.ofList_toList]
  exact ⟨_, _, _, _, rfl, rfl, htext, hnext⟩

/-- The tags of a line, which single spaces part. -/
theorem tokens_of_tags {gap : List Char} {s : String} {tags : List String} (hgap : ∀ g ∈ gap, isGap g)
    (hplace : place ≠ .inside) (htags : ∀ tag ∈ s :: tags, IsTag tag) :
    let ts := (ofBody d place afterBlank loc
      (gap ++ List.intercalate [' '] ((s :: tags).map String.toList))).filterMap Scanned.token?
    (∀ t ∈ ts, t.kind = .tag) ∧ ts.map Token.text = s :: tags := by
  induction tags generalizing s gap place afterBlank loc with
  | nil =>
    rcases @exists_tokens_of_tag d place afterBlank loc gap [] s hgap hplace
      (htags s List.mem_cons_self) (by simp) with ⟨t, _, _, _, htokens, hkind, htext, -⟩
    rw [List.append_nil, ofBody_nil] at htokens
    rw [List.map_singleton, List.intercalate_singleton, htokens]
    exact ⟨by simpa using hkind, by simpa using htext⟩
  | cons s' tags ih =>
    have hparted : List.intercalate [' '] ((s :: s' :: tags).map String.toList) =
        s.toList ++ ([' '] ++ List.intercalate [' '] ((s' :: tags).map String.toList)) := by
      rw [List.map_cons, List.map_cons, List.intercalate_cons_cons, List.append_assoc]
    rcases @exists_tokens_of_tag d place afterBlank loc gap
      ([' '] ++ List.intercalate [' '] ((s' :: tags).map String.toList)) s hgap hplace
      (htags s List.mem_cons_self) (by simpa using by decide) with
      ⟨t, place', afterBlank', loc', htokens, hkind, htext, hplace'⟩
    rcases @ih place' afterBlank' loc' [' '] s' (by simp; decide) hplace'
      (fun tag htag => htags tag (List.mem_cons_of_mem s htag)) with ⟨hkinds, htexts⟩
    rw [hparted, htokens]
    constructor
    · intro u hu
      rcases List.mem_cons.1 hu with rfl | hu
      · exact hkind
      · exact hkinds u hu
    · rw [List.map_cons, htexts, htext]

/-! ## Doc strings -/

theorem fence?_eq_none {l : Text.Line} {gap cs : List Char} (hbody : l.body = gap ++ cs)
    (hgap : ∀ g ∈ gap, isGap g) (hcs : ∀ c ∈ cs.head?, ¬ isGap c)
    (hopening : Delimiter.opening? cs = none) : fence? l = none := by
  have hdrop : l.body.dropWhile isGap = cs := by
    rw [hbody, List.dropWhile_append_of_pos hgap]
    cases cs with
    | nil => rfl
    | cons c cs => exact List.dropWhile_cons_of_neg (hcs c rfl)
  unfold fence?
  rw [hdrop, hopening, Option.map_none]

theorem fence?_eq_none_of_isAlphabetic {l : Text.Line} {gap cs : List Char} {c : Char}
    (hbody : l.body = gap ++ c :: cs) (hgap : ∀ g ∈ gap, isGap g) (hc : Text.isAlphabetic c) :
    fence? l = none := by
  have hquote : c ≠ '"' := by rintro rfl; revert hc; decide
  have htick : c ≠ '`' := by rintro rfl; revert hc; decide
  apply fence?_eq_none hbody hgap
  · intro d hd
    rw [← Option.some.inj hd]
    exact not_isGap_of_isAlphabetic hc
  · exact Delimiter.opening?_cons_eq_none hquote htick cs

theorem fence?_of_delimiter {l : Text.Line} {gap cs : List Char} {delimiter : Delimiter}
    (hbody : l.body = gap ++ (delimiter.chars ++ cs)) (hgap : ∀ g ∈ gap, isGap g) :
    fence? l = some ⟨delimiter, gap, cs⟩ := by
  have hmark : ¬ isGap delimiter.mark := by cases delimiter <;> decide
  have hdrop : l.body.dropWhile isGap = delimiter.chars ++ cs := by
    rw [hbody, List.dropWhile_append_of_pos hgap]
    exact List.dropWhile_cons_of_neg hmark
  have htake : l.body.takeWhile isGap = gap := by
    rw [hbody, List.takeWhile_append_of_pos hgap, Delimiter.chars, List.cons_append,
      List.takeWhile_cons_of_neg hmark, List.append_nil]
  unfold fence?
  rw [hdrop, htake, Delimiter.opening?_chars_append, Option.map_some]

theorem cut?_append_cons {p : Text.Line → Bool} {inner rest : List Text.Line} {closer : Text.Line}
    (hinner : ∀ l ∈ inner, p l = false) (hcloser : p closer) :
    cut? p (inner ++ closer :: rest) = some (inner, closer, rest) := by
  induction inner with
  | nil => rw [List.nil_append, cut?, if_pos hcloser]
  | cons l inner ih =>
    rw [List.cons_append, cut?, if_neg (by simp [hinner l List.mem_cons_self]),
      ih fun m hm => hinner m (List.mem_cons_of_mem l hm), Option.map_some]

theorem line_of_fence? {l closer : Text.Line} {inner rest : List Text.Line} {f : Fence}
    (hfence : fence? l = some f) (hinner : ∀ m ∈ inner, f.delimiter.closes m.body = false)
    (hcloser : f.delimiter.closes closer.body) :
    line d loc afterBlank l (inner ++ closer :: rest) =
      let start := loc.past f.indent
      let span := f.openingSpan ++ l.ending.chars ++ inner.flatMap Text.Line.chars ++ closer.body
      { results := f.token start (f.delimiter.content (start.column - 1) inner) span ::
          ofEnding (start.past span) closer.ending
        taken := inner ++ [closer]
        rest } := by
  unfold line
  rw [hfence]
  dsimp only
  rw [cut?_append_cons hinner hcloser]

end Scan

end Gherkin
