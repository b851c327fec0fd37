import Gherkin.Proofs.Document.Skipping
import Gherkin.Proofs.Document.Views
import Gherkin.Proofs.Token.Concatenation

/-!
# Documents put together

The tokens of a source that follows whole lines, and what the readers find in the text at them, are
those of the source on its own.  The whole lines, too, are read as they are on their own.
-/

namespace Gherkin

/-! ## Text at an offset -/

namespace Text

theorem dropBytes?_zero (cs : List Char) : dropBytes? 0 cs = some cs := by
  cases cs <;> rfl

theorem dropBytes?_succ_cons (n : Nat) (c : Char) (cs : List Char) : dropBytes? (n + 1) (c :: cs) =
    if c.utf8Size ≤ n + 1 then dropBytes? (n + 1 - c.utf8Size) cs else none := by
  rw [dropBytes?]

/-- What follows an offset of the first of two texts. -/
theorem dropBytes?_append {as : List Char} {n : Nat} (h : n ≤ byteLength as) (bs : List Char) :
    dropBytes? n (as ++ bs) = (dropBytes? n as).map (· ++ bs) := by
  induction as generalizing n with
  | nil =>
    obtain rfl : n = 0 := Nat.le_zero.1 h
    rw [dropBytes?_zero, dropBytes?_zero]
    rfl
  | cons a as ih =>
    cases n with
    | zero =>
      rw [dropBytes?_zero, dropBytes?_zero]
      rfl
    | succ n =>
      rw [List.cons_append, dropBytes?_succ_cons, dropBytes?_succ_cons]
      by_cases ha : a.utf8Size ≤ n + 1
      · rw [byteLength_cons] at h
        rw [if_pos ha, if_pos ha, ih (by omega)]
      · rw [if_neg ha, if_neg ha]
        rfl

/-- What follows an offset of the second. -/
theorem dropBytes?_add (as bs : List Char) (n : Nat) :
    dropBytes? (n + byteLength as) (as ++ bs) = dropBytes? n bs := by
  induction as with
  | nil => rfl
  | cons a as ih =>
    have hpos := a.utf8Size_pos
    obtain ⟨m, hm⟩ : ∃ m, n + byteLength (a :: as) = m + 1 := ⟨_, (Nat.succ_pred (by simp; omega)).symm⟩
    have hrest : m + 1 - a.utf8Size = n + byteLength as := by
      rw [byteLength_cons] at hm
      omega
    have hfits : a.utf8Size ≤ m + 1 := by
      rw [byteLength_cons] at hm
      omega
    rw [hm, List.cons_append, dropBytes?_succ_cons, if_pos hfits, hrest, ih]

theorem eq_append_of_dropBytes? {as rest : List Char} {n : Nat} (h : dropBytes? n as = some rest) :
    ∃ before, as = before ++ rest ∧ byteLength before = n := by
  induction as generalizing n with
  | nil =>
    cases n with
    | zero =>
      rw [dropBytes?_zero] at h
      exact ⟨[], Option.some.inj h, rfl⟩
    | succ n => simp [dropBytes?] at h
  | cons a as ih =>
    cases n with
    | zero =>
      rw [dropBytes?_zero] at h
      exact ⟨[], Option.some.inj h, rfl⟩
    | succ n =>
      rw [dropBytes?_succ_cons] at h
      by_cases ha : a.utf8Size ≤ n + 1
      · rw [if_pos ha] at h
        obtain ⟨before, rfl, hlength⟩ := ih h
        refine ⟨a :: before, rfl, ?_⟩
        rw [byteLength_cons, hlength]
        omega
      · rw [if_neg ha] at h
        simp at h

/-- Before the end of whole lines a line end is ahead. -/
theorem mem_of_dropBytes? {as rest : List Char} {n : Nat} (hlast : as.getLast? = some '\n')
    (hn : n < byteLength as) (h : dropBytes? n as = some rest) : '\n' ∈ rest := by
  obtain ⟨before, rfl, rfl⟩ := eq_append_of_dropBytes? h
  have hne : rest ≠ [] := by
    rintro rfl
    rw [List.append_nil] at hn
    exact Nat.lt_irrefl _ hn
  rw [List.getLast?_append_of_ne_nil _ hne] at hlast
  exact List.mem_of_getLast? hlast

theorem isSome_dropWord?_append (word : List Char) {rest : List Char} (hword : '\n' ∉ word)
    (hrest : '\n' ∈ rest) (bs : List Char) :
    (dropWord? word (rest ++ bs)).isSome = (dropWord? word rest).isSome := by
  induction word generalizing rest with
  | nil => rfl
  | cons w word ih =>
    cases rest with
    | nil => simp at hrest
    | cons c rest =>
      rw [List.cons_append, dropWord?, dropWord?]
      by_cases hc : w = c
      · rw [if_pos hc, if_pos hc]
        refine ih (fun h => hword (List.mem_cons_of_mem w h)) ?_
        refine (List.mem_cons.1 hrest).resolve_left fun h => hword ?_
        rw [h, ← hc]
        exact List.mem_cons_self
      · rw [if_neg hc, if_neg hc]

end Text

namespace Reader

variable {as : List Char} {n : Nat}

/-- To the end of a line that is whole it does not matter what follows. -/
theorem textFrom_append (hlast : as.getLast? = some '\n') (hn : n < Text.byteLength as)
    (bs : List Char) : textFrom (as ++ bs) n = textFrom as n := by
  unfold textFrom
  rw [Text.dropBytes?_append (Nat.le_of_lt hn)]
  cases hdrop : Text.dropBytes? n as with
  | none => rfl
  | some rest =>
    have hlf := Text.mem_of_dropBytes? hlast hn hdrop
    dsimp only [Option.map_some, Option.getD_some]
    rw [List.takeWhile_append, if_neg]
    intro hall
    have htake := (List.takeWhile_prefix fun c => decide (c ≠ '\n')).eq_of_length hall
    have hpos := List.takeWhile_eq_self_iff.1 htake _ hlf
    simp at hpos

theorem docString_append {t : Token} (hlast : as.getLast? = some '\n')
    (ht : t.location.offset < Text.byteLength as) (bs : List Char) :
    docString (as ++ bs) t = docString as t := by
  apply docString_congr rfl rfl
  rw [Text.dropBytes?_append (Nat.le_of_lt ht)]
  cases hdrop : Text.dropBytes? t.location.offset as with
  | none => rfl
  | some rest =>
    have hlf := Text.mem_of_dropBytes? hlast ht hdrop
    exact Text.isSome_dropWord?_append Delimiter.backticks.chars (by decide) hlf bs

end Reader

/-! ## Views of a joined source -/

namespace View

def front (as bs : List Char) : View := ⟨as, as ++ bs, Location.moved 0 0, (· + 0)⟩

def back (as bs : List Char) : View := ⟨bs, as ++ bs, Location.behind as, (· + Text.byteLength as)⟩

theorem token_front (as bs : List Char) : (front as bs).token = id := by
  funext t
  rfl

theorem shows_front {as : List Char} (bs : List Char) {t : Token} (hlast : as.getLast? = some '\n')
    (hoffset : t.location.offset < Text.byteLength as)
    (hstop : t.kind.isKeyword → t.stop < Text.byteLength as) : (front as bs).Shows t where
  title hk := Reader.textFrom_append hlast (hstop hk) bs
  line _ := Reader.textFrom_append hlast hoffset bs
  docString _ := Reader.docString_append hlast hoffset bs

theorem textFrom_back (as bs : List Char) (n : Nat) :
    Reader.textFrom (as ++ bs) (n + Text.byteLength as) = Reader.textFrom bs n := by
  unfold Reader.textFrom
  rw [Text.dropBytes?_add]

theorem shows_back (as bs : List Char) (t : Token) : (back as bs).Shows t where
  title _ := textFrom_back as bs t.stop
  line _ := textFrom_back as bs t.location.offset
  docString _ := by
    refine Reader.docString_congr rfl rfl ?_
    show ((Text.dropBytes? (t.location.offset + Text.byteLength as) (as ++ bs)).bind _).isSome = _
    rw [Text.dropBytes?_add]
    rfl

end View

namespace Reader

theorem headerDescription_front {as more : List Char} {ts : List Token}
    (h : ∀ t ∈ ts, (View.front as more).Shows t) :
    headerDescription (as ++ more) ts = headerDescription as ts := by
  have hmap := headerDescription_map h
  rwa [View.token_front, List.map_id] at hmap

theorem skipHeader_front {as more : List Char} {ts : List Token}
    (h : ∀ t ∈ ts, (View.front as more).Shows t) :
    skipHeader (as ++ more) ts = skipHeader as ts := by
  have hmap := skipHeader_map h
  rwa [View.token_front, List.map_id, List.map_id] at hmap

/-! ## Tokens of a joined source -/

theorem live_eq {source : String} {ts : List Token} {finish : Token}
    (h : tokens .english source = ts ++ [finish]) : live (tokens .english source) = ts := by
  obtain ⟨finish', htokens, -, -⟩ := laid_live source
  rw [h] at htokens
  have hinj := (List.append_inj' htokens rfl).1
  rw [← h] at hinj
  exact hinj.symm

/-- The end of a source comes after every other token. -/
theorem exists_live_eq {source : String} {before after : List Token} {t : Token}
    (h : tokens .english source = before ++ t :: after) (ht : t.kind ≠ .eof) :
    ∃ mid, mid ⊆ after ∧ live (tokens .english source) = before ++ t :: mid := by
  obtain ⟨finish, hfinish, heof, -⟩ := laid_live source
  rw [h] at hfinish
  rcases List.eq_nil_or_concat after with rfl | ⟨mid, x, rfl⟩
  · have hlast := (List.append_inj' hfinish rfl).2
    exact absurd heof ((List.cons.inj hlast).1 ▸ ht)
  · have hcut : tokens .english source = before ++ t :: mid ++ [x] := by
      rw [h, List.concat_eq_append, List.append_assoc]
      rfl
    exact ⟨mid, by simp, live_eq hcut⟩

theorem exists_tiles_live (source : String) : ∃ mark cs xs, source.toList = mark ++ cs ∧
    live (tokens .english source) = xs.filterMap Scanned.token? ∧
      lexicalErrors .english source = xs.filterMap Scanned.error? ∧
        Scan.Tiles (Text.byteLength mark) cs xs := by
  obtain ⟨mark, cs, xs, finish, -, hsource, hall, -, htiles⟩ :=
    Scan.exists_tiles_all Dialect.Offered.english.isKeyword source
  exact ⟨mark, cs, xs, hsource, live_eq (tokens_of_all_eq hall), lexicalErrors_of_all_eq hall, htiles⟩

/-- Every token before the end of a source starts before it. -/
theorem offset_lt_of_mem_live {source : String} {t : Token} (h : t ∈ live (tokens .english source)) :
    t.location.offset < Text.byteLength source.toList := by
  obtain ⟨mark, cs, xs, hsource, hlive, -, htiles⟩ := exists_tiles_live source
  rw [hlive] at h
  rw [hsource, Text.byteLength_append]
  exact (htiles.offset_bounds h).2.1

theorem offset_lt_of_mem_lexicalErrors {source : String} {e : LexicalError}
    (h : e ∈ lexicalErrors .english source) : e.location.offset < Text.byteLength source.toList := by
  obtain ⟨mark, cs, xs, hsource, -, herrors, htiles⟩ := exists_tiles_live source
  rw [herrors] at h
  rw [hsource, Text.byteLength_append]
  exact htiles.offset_lt_of_mem_errors h

/-- Of two tokens the first stops before the second starts. -/
theorem pairwise_stop_live (source : String) :
    (live (tokens .english source)).Pairwise fun t u => t.stop ≤ u.location.offset := by
  obtain ⟨mark, cs, xs, -, hlive, -, htiles⟩ := exists_tiles_live source
  rw [hlive]
  exact htiles.pairwise_tokens.imp And.right

/-- Whole lines end with a line end. -/
theorem getLast?_live {source : String} (h : source.toList.getLast? = some '\n') :
    ∃ n, (live (tokens .english source)).getLast? = some n ∧ n.kind = .newline := by
  obtain ⟨xs, n, finish, hall, hn⟩ := Scan.exists_all_eq (d := .english) h
  have htokens : tokens .english source = xs.filterMap Scanned.token? ++ [n] ++ [finish] := by
    rw [tokens, hall, List.filterMap_append, List.append_assoc]
    rfl
  exact ⟨n, by rw [live_eq htokens]; simp, hn⟩

theorem getLast?_of_laid {d : Dialect} {source : List Char} {nameless : Prop} {s : LineState}
    {before after : List Token} {t : Token} (ht : t.kind.isKeyword)
    (h : Laid (Scan.opensAs d source nameless) s (before ++ t :: after)) :
    ∀ x ∈ before.getLast?, x.kind = .newline := by
  induction before generalizing s with
  | nil => simp
  | cons u before ih =>
    obtain ⟨s', hallows, hmore⟩ := h
    cases before with
    | nil =>
      intro x hx
      obtain rfl : u = x := by simpa using hx
      obtain ⟨s'', hallows', -⟩ := hmore
      have hstart : s' = .start := by
        cases hallows' with
        | keyword => rfl
        | lineEnd hk | tag hk | moreTags hk | taggedComment hk =>
          simp [hk, TokenKind.isKeyword, TokenKind.isBlock, TokenKind.isStep] at ht
        | whole hk | opening hk | word hk | taggedWord hk =>
          cases hkind : t.kind <;> simp [hkind, TokenKind.isKeyword, TokenKind.isWhole,
            TokenKind.isInline, TokenKind.isBlock, TokenKind.isStep] at hk ht
      subst hstart
      cases hallows with
      | lineEnd hk => exact hk
      | opening _ hopens => rcases hopens with ⟨hs, -⟩ | ⟨hs, -⟩ <;> simp at hs
    | cons u' before =>
      rw [List.getLast?_cons_cons]
      exact ih hmore

/-! ## What follows whole lines -/

def follow (source more : String) : List Scanned :=
  Scan.lines .english (Location.start.behind source.toList) true (Text.lines more.toList)

variable {source : String}

theorem tokens_append (hlast : source.toList.getLast? = some '\n')
    (h : Scan.Terminated (Scan.all .english source)) (more : String) :
    tokens .english (source ++ more) =
        live (tokens .english source) ++ (follow source more).filterMap Scanned.token? ∧
      lexicalErrors .english (source ++ more) =
        lexicalErrors .english source ++ (follow source more).filterMap Scanned.error? := by
  obtain ⟨ts, finish, htokens, -, hmore⟩ := Scan.exists_tokens_append hlast h
  rw [live_eq htokens]
  exact hmore more

/-- The tokens of the text behind are on later lines. -/
theorem exists_live_append (hlast : source.toList.getLast? = some '\n')
    (h : Scan.Terminated (Scan.all .english source)) (more : String) :
    ∃ after, live (tokens .english (source ++ more)) = live (tokens .english source) ++ after ∧
      ∀ t ∈ after, source.toList.count '\n' < t.location.line := by
  have htokens := (tokens_append hlast h more).1
  obtain ⟨finish, hlive, hfinish, -⟩ := laid_live (source ++ more)
  have hlines : ∀ t ∈ (follow source more).filterMap Scanned.token?,
      source.toList.count '\n' < t.location.line := by
    intro t ht
    have hline := Scan.le_line_of_mem_lines (Scanned.mem_tokens_iff.1 ht)
    simp only [Location.behind, Location.moved, Location.start] at hline
    change 1 + source.toList.count '\n' ≤ t.location.line at hline
    omega
  -- The last of all tokens is the end of the source, and none of those before is one.
  rcases List.eq_nil_or_concat ((follow source more).filterMap Scanned.token?) with
    hnil | ⟨after, u, hcut⟩
  · exfalso
    rw [hnil, List.append_nil] at htokens
    have hmem : finish ∈ live (tokens .english source) := by
      rw [← htokens, hlive]
      simp
    have hne := List.mem_takeWhile_imp hmem
    simp [hfinish] at hne
  · rw [List.concat_eq_append] at hcut
    rw [hcut, ← List.append_assoc] at htokens
    refine ⟨after, live_eq htokens, fun t ht => hlines t ?_⟩
    rw [hcut]
    exact List.mem_append_left _ ht

/-- A source behind another has the tokens and the errors that it has on its own. -/
theorem live_append_of_head? (hlast : source.toList.getLast? = some '\n')
    (h : Scan.Terminated (Scan.all .english source)) {more : String}
    (hmark : more.toList.head? ≠ some Scan.byteOrderMark) :
    live (tokens .english (source ++ more)) = live (tokens .english source) ++
        (live (tokens .english more)).map (View.back source.toList more.toList).token ∧
      (lexicalErrors .english (source ++ more)).map ParseError.ofLexical =
        (lexicalErrors .english source).map ParseError.ofLexical ++
          ((lexicalErrors .english more).map ParseError.ofLexical).map
            (ParseError.relocate (Location.behind source.toList)) := by
  have hfollow : follow source more = (Scan.all .english more).map
      (Scanned.moved (source.toList.count '\n') (Text.byteLength source.toList)) :=
    Scan.lines_behind source.toList hmark
  obtain ⟨htokens, herrors⟩ := tokens_append hlast h more
  rw [hfollow, Scanned.token?_moved] at htokens
  rw [hfollow, Scanned.error?_moved] at herrors
  obtain ⟨finish, hlive, -, -⟩ := laid_live more
  have hmoved : (tokens .english more).map (View.back source.toList more.toList).token =
      (live (tokens .english more)).map (View.back source.toList more.toList).token ++
        [(View.back source.toList more.toList).token finish] := by
    conv_lhs => rw [hlive]
    rw [List.map_append, List.map_singleton]
  constructor
  · apply live_eq
    rw [htokens, List.append_assoc]
    exact congrArg _ hmoved
  · rw [herrors, List.map_append, List.map_map, List.map_map]
    rfl

end Reader

end Gherkin
