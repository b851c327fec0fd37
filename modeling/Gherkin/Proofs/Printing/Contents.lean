import Gherkin.Proofs.Printing.Lines
import Gherkin.Proofs.Printing.Scanning
import Gherkin.Proofs.Token.Keyword
import Gherkin.Proofs.Token.Origin

/-!
# What is read from tokens

Titles, tags, doc strings and the lines of descriptions are read in a form in which they can be printed.
-/

namespace Gherkin

/-! ## Titles and tags -/

theorem isTitle_textFrom (source : List Char) (offset : Nat) : IsTitle (Reader.textFrom source offset) := by
  unfold Reader.textFrom IsTitle
  rw [String.toList_ofList]
  refine ⟨Text.trim_idem _, fun h => ?_⟩
  have hline := List.mem_takeWhile_imp (Text.mem_of_mem_trim h)
  revert hline
  decide

namespace Lexeme

/-- The token of a lexeme is a keyword, free text, a comment, a row or a tag with a name. -/
theorem kind_of_take {d : Dialect} (hd : ∀ s ∈ d.spellings, s.kind.isKeyword) {place : Place}
    {afterBlank : Bool} {c : Char} {cs text : List Char} {kind : TokenKind}
    (h : (take d place afterBlank c cs).token = some (kind, text)) :
    kind.isKeyword ∨ kind.isInline ∨ kind = .comment ∨ kind = .tableRow ∨
      (kind = .tag ∧ ∃ name, text = '@' :: name ∧ name ≠ [] ∧ ∀ c ∈ name, isTagCharacter c) := by
  have hinline : (inline afterBlank c cs).token = some (kind, text) → kind.isInline := by
    intro h
    rcases inline_token afterBlank c cs with ⟨kind', text', htoken, hkind⟩
    rw [htoken] at h
    rw [← (Prod.mk.inj (Option.some.inj h)).1]
    exact hkind
  have htag : (tag cs).token = some (kind, text) →
      kind = .tag ∧ ∃ name, text = '@' :: name ∧ name ≠ [] ∧ ∀ c ∈ name, isTagCharacter c := by
    intro h
    rcases tag_token cs with ⟨name, htoken, hne, hname, -⟩ | ⟨htoken, -⟩
    · rw [htoken] at h
      rcases Prod.mk.inj (Option.some.inj h) with ⟨rfl, rfl⟩
      exact ⟨rfl, name, rfl, hne, hname⟩
    · rw [htoken] at h
      simp at h
  have hcomment : (comment cs).token = some (kind, text) → kind = .comment := by
    intro h
    exact (Prod.mk.inj (Option.some.inj h)).1.symm
  -- Each place tries its rules in turn; every rule gives one of the kinds.
  unfold take at h
  cases place with
  | inside => exact Or.inr (Or.inl (hinline h))
  | tags =>
    dsimp only at h
    split at h
    · exact Or.inr (Or.inr (Or.inr (Or.inr (htag h))))
    · split at h
      · exact Or.inr (Or.inr (Or.inl (hcomment h)))
      · exact Or.inr (Or.inl (hinline h))
  | first =>
    dsimp only at h
    split at h
    · exact Or.inr (Or.inr (Or.inl (hcomment h)))
    split at h
    · exact Or.inr (Or.inr (Or.inr (Or.inr (htag h))))
    split at h
    · exact Or.inr (Or.inr (Or.inr (Or.inl (Prod.mk.inj (Option.some.inj h)).1.symm)))
    split at h
    · cases hkeyword : keyword? d c cs with
      | none =>
        rw [hkeyword] at h
        exact Or.inr (Or.inl (hinline h))
      | some lx =>
        rcases keyword?_token hkeyword with ⟨s, hs, word, htoken⟩
        rw [hkeyword, Option.getD_some, htoken] at h
        rw [← (Prod.mk.inj (Option.some.inj h)).1]
        exact Or.inl (hd s hs)
    · exact Or.inr (Or.inl (hinline h))

end Lexeme

variable {source : String} {t : Token}

theorem isTag_of_mem_tokens (h : t ∈ tokens .english source) (ht : t.kind = .tag) : IsTag t.text := by
  have horigin := origin_of_mem_tokens h
  generalize hx : Scanned.token t = x at horigin
  cases horigin with
  | @lexeme place afterBlank loc c cs rest _ hat hlf hrest hmem =>
    rw [← hx] at hmem
    rcases Scan.eq_of_token_mem_ofLexeme hmem with ⟨kind, text, htoken, rfl⟩
    have hkind := Lexeme.kind_of_take (fun _ => Dialect.isKeyword_of_mem_english) htoken
    rw [show kind = .tag from ht] at hkind
    simp only [TokenKind.isKeyword, TokenKind.isBlock, TokenKind.isStep, TokenKind.isInline] at hkind
    simp only [Bool.or_self, Bool.false_eq_true, reduceCtorEq, false_or, true_and] at hkind
    rcases hkind with ⟨name, htext, hname⟩
    exact ⟨name, by rw [htext, String.toList_ofList], hname⟩
  | ending hat hmem =>
    rw [← hx] at hmem
    rw [Scan.eq_of_token_mem_ofEnding hmem] at ht
    simp at ht
  | docString =>
    rw [Scanned.token.inj hx] at ht
    simp at ht
  | unclosed hat hcut hfence hmem =>
    rcases hmem with hmem | hmem
    · rw [hmem] at hx
      simp at hx
    · rw [hmem] at hx
      rw [Scanned.token.inj hx] at ht
      simp at ht
  | finish hat =>
    rw [Scanned.token.inj hx] at ht
    simp at ht

/-! ## Doc strings -/

theorem Delimiter.stripIndent_suffix (n : Nat) (cs : List Char) : stripIndent n cs <:+ cs := by
  induction n generalizing cs with
  | zero => cases cs <;> exact List.suffix_refl _
  | succ n ih =>
    cases cs with
    | nil => exact List.suffix_refl _
    | cons c cs =>
      unfold stripIndent
      split
      · exact (ih cs).trans (List.suffix_cons c cs)
      · exact List.suffix_refl _

/-- What is read of a line of a block, before its delimiters are read back, stands on one line. -/
theorem Delimiter.onOneLine_written (n : Nat) {body : List Char} (hlf : '\n' ∉ body) :
    Printed.OnOneLine (stripIndent n (Text.dropEndWhile (· = '\r') body)) := by
  have hsuffix := stripIndent_suffix n (Text.dropEndWhile (· = '\r') body)
  refine ⟨fun h => hlf ((Text.dropEndWhile_prefix _ body).subset (hsuffix.subset h)), fun hlast => ?_⟩
  obtain ⟨cs, hcs⟩ := List.getLast?_eq_some_iff.1 hlast
  obtain ⟨before, hbefore⟩ := hsuffix
  rw [hcs, ← List.append_assoc] at hbefore
  exact Text.not_of_dropEndWhile_eq_concat hbefore.symm (by decide)

/-- No line of a content ends with a carriage return. -/
theorem Delimiter.getLast?_ne_of_mem_content {d : Delimiter} {n : Nat} {ls : List Text.Line}
    (hls : ∀ l ∈ ls, '\n' ∉ l.body) :
    ∀ cs ∈ (d.content n ls).splitOn '\n', cs.getLast? ≠ some '\r' := by
  let written := ls.map fun l => stripIndent n (Text.dropEndWhile (· = '\r') l.body)
  have hcontent : d.content n ls = List.intercalate ['\n'] (written.map d.unescape) :=
    unescape_intercalate written
  have hread : ∀ cs ∈ written.map d.unescape, Printed.OnOneLine cs := by
    intro cs hcs
    obtain ⟨w, hw, rfl⟩ := List.mem_map.1 hcs
    obtain ⟨l, hl, rfl⟩ := List.mem_map.1 hw
    obtain ⟨hlf, hcr⟩ := onOneLine_written n (hls l hl)
    have hchars : ∀ c ∈ d.chars, c ≠ '\n' ∧ c ≠ '\r' := by cases d <;> simp [chars, mark]
    refine ⟨fun h => ?_, Text.getLast?_replaceAll_ne (fun h => (hchars _ h).2 rfl) (by simp [chars]) hcr⟩
    rcases Text.mem_of_mem_replaceAll h with h | h
    · exact hlf h
    · exact (hchars _ h).1 rfl
  intro cs hcs
  rw [hcontent] at hcs
  by_cases hnil : written.map d.unescape = []
  · rw [hnil, List.intercalate_nil, List.splitOn_nil] at hcs
    rw [List.mem_singleton.1 hcs]
    simp
  · rw [List.splitOn_intercalate '\n' (fun l hl => (hread l hl).1) hnil] at hcs
    exact (hread cs hcs).2

/-- A doc string with a settled content, annotated on the line that opens it. -/
theorem printable_of_fence {f : Scan.Fence} {content : List Char} (hsettled : f.delimiter.Settled content)
    (hcr : ∀ cs ∈ content.splitOn '\n', cs.getLast? ≠ some '\r') (hlf : '\n' ∉ f.annotation) :
    DocString.Printable ⟨String.ofList content, f.contentType, f.delimiter⟩ := by
  constructor
  · rwa [String.toList_ofList]
  · rwa [String.toList_ofList]
  · intro s hs
    unfold Scan.Fence.contentType at hs
    dsimp only at hs
    split at hs
    · simp at hs
    · rename_i hne
      rw [← Option.some.inj hs]
      refine ⟨⟨?_, ?_⟩, ?_⟩
      · rw [String.toList_ofList, Text.trim_idem]
      · rw [String.toList_ofList]
        exact fun h => hlf (Text.mem_of_mem_trim h)
      · intro hempty
        have hnil := congrArg String.toList hempty
        rw [String.toList_ofList] at hnil
        rw [hnil] at hne
        simp at hne

theorem not_mem_of_fence? {l : Text.Line} {f : Scan.Fence} (h : Scan.fence? l = some f)
    (hl : '\n' ∉ l.body) : '\n' ∉ f.annotation := by
  intro hmem
  apply hl
  rw [(Scan.body_eq_of_fence? h).1]
  exact List.mem_append_right _ (List.mem_append_right _ hmem)

theorem docString_of_fence? {source : List Char} {loc : Location} {l : Text.Line} {ls : List Text.Line}
    {f : Scan.Fence} (hat : loc.At source ((l :: ls).flatMap Text.Line.chars))
    (hfence : Scan.fence? l = some f) (ht : t.location = loc.past f.indent) :
    Reader.docString source t = ⟨t.text, t.contentType, f.delimiter⟩ := by
  have hstart := Scan.at_openingSpan hat hfence
  rw [← ht, Scan.Fence.openingSpan, List.append_assoc] at hstart
  exact hstart.docString

theorem printable_docString (h : t ∈ tokens .english source) (ht : t.kind = .docString) :
    (Reader.docString source.toList t).Printable := by
  have horigin := origin_of_mem_tokens h
  generalize hx : Scanned.token t = x at horigin
  -- Of the rules that make tokens only a fence makes a doc string.
  cases horigin with
  | @lexeme place afterBlank loc c cs rest _ hat hlf hrest hmem =>
    rw [← hx] at hmem
    rcases Scan.eq_of_token_mem_ofLexeme hmem with ⟨kind, text, htoken, rfl⟩
    have hkind := Lexeme.kind_of_take (fun _ => Dialect.isKeyword_of_mem_english) htoken
    rw [show kind = .docString from ht] at hkind
    simp [TokenKind.isKeyword, TokenKind.isBlock, TokenKind.isStep, TokenKind.isInline] at hkind
  | ending hat hmem =>
    rw [← hx] at hmem
    rw [Scan.eq_of_token_mem_ofEnding hmem] at ht
    simp at ht
  | @docString loc l closer inner rest f hat hcut hfence =>
    have htoken := Scanned.token.inj hx
    have hlines : ∀ m ∈ inner, '\n' ∉ m.body := by
      intro m hm
      exact Text.not_mem_body_of_wellCut hcut m (by simp [hm])
    rw [docString_of_fence? (List.cons_append ▸ hat) hfence (by rw [htoken]), htoken]
    exact printable_of_fence (Delimiter.settled_unescape _) (Delimiter.getLast?_ne_of_mem_content hlines)
      (not_mem_of_fence? hfence hcut.1)
  | @unclosed loc l ls f _ hat hcut hfence hmem =>
    rcases hmem with hmem | hmem
    · rw [hmem] at hx
      simp at hx
    · rw [hmem] at hx
      have htoken := Scanned.token.inj hx
      have hsettled := Delimiter.settled_unescape (d := f.delimiter) []
      rw [Delimiter.unescape_nil] at hsettled
      rw [docString_of_fence? hat hfence (by rw [htoken]), htoken]
      exact printable_of_fence hsettled (by simp) (not_mem_of_fence? hfence hcut.1)
  | finish hat =>
    rw [Scanned.token.inj hx] at ht
    simp at ht

/-! ## Lines of descriptions -/

namespace Lexeme

section
variable {d : Dialect} {trail : List Char}

theorem keyword?_eq_none_iff {c : Char} {cs : List Char} : keyword? d c cs = none ↔
    ∀ s ∈ d.precedence, keywordBy? d (Text.dropEndWhile (· = '\r') (c :: cs)) s = none := by
  unfold keyword?
  rw [Option.map_eq_none_iff, List.findSome?_eq_none_iff]

/-- A line that starts with free text still does so without the blanks at its end. -/
theorem OpensProse.of_append {line : List Char} (h : OpensProse d (line ++ trail)) (hline : line ≠ [])
    (hcr : '\r' ∉ line) (htrail : ∀ c ∈ trail, isSpaceOrTab c) : OpensProse d line := by
  have hcr' : '\r' ∉ line ++ trail := by
    intro hmem
    rcases List.mem_append.1 hmem with hmem | hmem
    · exact hcr hmem
    · exact absurd (htrail _ hmem) (by decide)
  cases line with
  | nil => exact absurd rfl hline
  | cons c cs =>
    rw [List.cons_append] at h
    rcases h with ⟨hgap, hopening, hcomment, htag, hrow, hkeyword⟩
    refine ⟨hgap, ?_, hcomment, htag, hrow, fun hc => ?_⟩
    · -- A fence, or a keyword, in the line would be one in the longer line as well.
      by_contra hsome
      rcases Option.ne_none_iff_exists'.1 hsome with ⟨⟨delimiter, rest⟩, hopened⟩
      rw [← List.cons_append, Delimiter.eq_append_of_opening? hopened, List.append_assoc,
        Delimiter.opening?_chars_append] at hopening
      simp at hopening
    · have hnone := keyword?_eq_none_iff.1 (hkeyword hc)
      rw [← List.cons_append, Text.dropEndWhile_of_not_mem hcr'] at hnone
      rw [keyword?_eq_none_iff, Text.dropEndWhile_of_not_mem hcr]
      intro s hs
      by_contra hsome
      obtain ⟨hne, hstarts⟩ := keywordBy?_isSome_iff.1 (Option.isSome_iff_ne_none.2 hsome)
      have hstarts' := hstarts.append fun c hc => (isSpaceOrTab_iff c).1 (htrail c hc)
      have hsome' := keywordBy?_isSome_iff.2 ⟨hne, hstarts'⟩
      rw [hnone s hs] at hsome'
      simp at hsome'

end

end Lexeme

/-- The only blanks of a text are spaces, tabs and line feeds. -/
def PlainBlanks (cs : List Char) : Prop :=
  ∀ c ∈ cs, Text.isBlank c → c = ' ' ∨ c = '\t' ∨ c = '\n'

theorem PlainBlanks.of_all {cs : List Char}
    (h : (cs.all fun c => !Text.isBlank c || c = ' ' || c = '\t' || c = '\n') = true) : PlainBlanks cs := by
  intro c hc hblank
  have hplain := List.all_eq_true.1 h c hc
  rw [hblank] at hplain
  simpa [or_assoc] using hplain

theorem PlainBlanks.not_mem_return {cs : List Char} (h : PlainBlanks cs) : '\r' ∉ cs := by
  intro hmem
  have hblank := h '\r' hmem (by decide)
  revert hblank
  decide

/-- What is read of a line that starts with free text is a line of a description. -/
theorem isProseLine_textFrom {source : List Char} (hblanks : PlainBlanks source) {t : Token}
    (h : t.Opens .english source) :
    Reader.textFrom source t.location.offset ≠ "" ∧
      IsProseLine (Reader.textFrom source t.location.offset).toList := by
  rcases h with ⟨cs, rest, hat, hlf, hrest, hopens⟩
  have hmem : ∀ c ∈ cs, c ∈ source := by
    intro c hc
    rcases hat.eq_append with ⟨before, hsource, -⟩
    rw [hsource]
    exact List.mem_append_right _ (List.mem_append_left _ hc)
  have hspace : ∀ c ∈ cs, Text.isBlank c → Lexeme.isSpaceOrTab c := by
    intro c hc hblank
    rcases hblanks c (hmem c hc) hblank with rfl | rfl | rfl
    · rfl
    · rfl
    · exact absurd hc hlf
  have hstart : ∀ c ∈ cs.head?, ¬ Text.isBlank c := by
    intro c hc hblank
    have hgap := hspace c (List.mem_of_head? hc) hblank
    exact hopens.not_isGap c hc (by simp_all [Lexeme.isSpaceOrTab, Scan.isGap])
  rcases Text.exists_eq_append_trim_append cs with ⟨lead, trail, hsplit, hlead, htrail⟩
  have hne : cs ≠ [] := by
    rintro rfl
    exact hopens
  -- The line starts with no blank, so that trimming only takes blanks from its end.
  have hnil : lead = [] := by
    cases lead with
    | nil => rfl
    | cons c lead =>
      rw [hsplit] at hstart
      exact absurd (hlead c List.mem_cons_self) (hstart c rfl)
  rw [hnil, List.nil_append] at hsplit
  have htrim : Text.trim cs ≠ [] := by
    intro htrim
    rw [htrim, List.nil_append] at hsplit
    cases trail with
    | nil => exact hne hsplit
    | cons c trail =>
      rw [hsplit] at hstart
      exact hstart c rfl (htrail c List.mem_cons_self)
  -- Without those blanks it is still free text and not a keyword.
  have hopens' : Lexeme.OpensProse .english (Text.trim cs) := by
    rw [hsplit] at hopens
    apply hopens.of_append htrim
    · intro hmem'
      exact hblanks.not_mem_return (hmem _ (Text.mem_of_mem_trim hmem'))
    · intro c hc
      refine hspace c ?_ (htrail c hc)
      rw [hsplit]
      exact List.mem_append_right _ hc
  rw [hat.textFrom_line hlf hrest]
  constructor
  · intro hempty
    have hnil := congrArg String.toList hempty
    rw [String.toList_ofList] at hnil
    exact htrim hnil
  · rw [String.toList_ofList]
    exact ⟨Text.trim_idem cs, fun hmem' => hlf (Text.mem_of_mem_trim hmem'), hopens'⟩

end Gherkin
