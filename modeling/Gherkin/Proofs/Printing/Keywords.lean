import Gherkin.Proofs.Printing.Spelling

/-!
# Printed lines of tags and of steps

A line of tags spells the tags in their order, and the line of a step its keyword and its text.  What is shared
with the headers of blocks, the text after a keyword, comes first.
-/

namespace Gherkin

namespace Printed

variable {source : List Char}

/-! ## Tags -/

-- A run of tokens that are the tags, before the tokens of what follows.
theorem spells_tags {tags : List String} {run ts : List Token} {es : List Entry}
    (hrun : ∀ t ∈ run, t.kind = .tag) (htags : run.map Token.text = tags) (h : Spells source es ts) :
    Spells source (tags.map .tag ++ es) (run ++ ts) := by
  induction run generalizing tags with
  | nil =>
    rw [← htags]
    exact h
  | cons t run ih =>
    have hrest := @ih (run.map Token.text) (fun u hu => hrun u (List.mem_cons_of_mem t hu)) rfl
    rw [← htags]
    exact spells_cons (e := .tag t.text) ⟨hrun t List.mem_cons_self, rfl⟩ hrest

theorem tagLine_cons (s : String) (tags : List String) :
    tagLine (s :: tags) = [(0, List.intercalate [' '] ((s :: tags).map String.toList))] := by
  unfold tagLine
  rw [String.toList_intercalate]
  rfl

theorem exists_intercalate_tags_eq {s : String} {tags : List String} (h : ∀ tag ∈ s :: tags, IsTag tag) :
    ∃ cs, List.intercalate [' '] ((s :: tags).map String.toList) = '@' :: cs := by
  rcases h s List.mem_cons_self with ⟨name, hname, -⟩
  rw [List.map_cons, hname]
  cases tags with
  | nil => exact ⟨name, List.intercalate_singleton⟩
  | cons s' tags =>
    rw [List.map_cons, List.intercalate_cons_cons]
    exact ⟨_, rfl⟩

-- No character of a tag, and no space between tags, ends a line.
theorem onOneLine_tags {tags : List String} (h : ∀ s ∈ tags, IsTag s) :
    OnOneLine (List.intercalate [' '] (tags.map String.toList)) := by
  have hmem : ∀ c ∈ List.intercalate [' '] (tags.map String.toList), c ≠ '\n' ∧ c ≠ '\r' := by
    intro c hc
    rcases Text.mem_of_mem_intercalate hc with hc | ⟨l, hl, hc⟩
    · rw [List.mem_singleton.1 hc]
      decide
    · rcases List.mem_map.1 hl with ⟨tag, htag, rfl⟩
      rcases h tag htag with ⟨word, hword, -, hword'⟩
      rw [hword] at hc
      rcases List.mem_cons.1 hc with rfl | hc
      · decide
      · constructor <;> rintro rfl <;> exact absurd (hword' _ hc) (by decide)
  exact onOneLine_of_not_mem (fun hc => (hmem _ hc).1 rfl) fun hc => (hmem _ hc).2 rfl

theorem prints_tagLine (n : Nat) {tags : List String} (h : ∀ s ∈ tags, IsTag s) :
    Prints source (shift n (tagLine tags)) (tags.map .tag) := by
  cases tags with
  | nil => exact .nil
  | cons s tags =>
    rw [tagLine_cons, shift_singleton]
    rcases exists_intercalate_tags_eq h with ⟨cs, hcs⟩
    have hne : List.intercalate [' '] ((s :: tags).map String.toList) ≠ [] := by
      rw [hcs]
      simp
    apply Prints.of_line
    · exact onOneLine_tags h
    · refine Scan.fence?_eq_none (body_line hne) isGap_of_mem_replicate ?_ ?_
      · rw [hcs]
        simpa using by decide
      · rw [hcs]
        exact Delimiter.opening?_cons_eq_none (by decide) (by decide) cs
    · intro loc rest t ts es' ht hat hts
      rw [body_line hne]
      rcases @Scan.tokens_of_tags .english .first true loc _ s tags (isGap_of_mem_replicate (n := 2 * n))
        (by simp) h with ⟨hkinds, htexts⟩
      exact spells_tags hkinds htexts ((spells_cons_newline ht).2 hts)

/-! ## Lines of keywords -/

-- The title after a keyword is the text that is left of the line.
theorem exists_tokens_of_keyword {gap cs rest written span tail : List Char} {c : Char}
    {kind : TokenKind} {loc : Location} (hgap : ∀ g ∈ gap, Scan.isGap g) (hc : Text.isAlphabetic c)
    (hkeyword : Lexeme.keyword? .english c cs =
      some { token := some (kind, written), span, rest := tail })
    (hat : loc.At source (gap ++ c :: cs ++ '\n' :: rest)) (hlf : '\n' ∉ tail) :
    ∃ t words, (Scan.ofBody .english .first true loc (gap ++ c :: cs)).filterMap Scanned.token? =
        t :: words ∧ t.kind = kind ∧ Reader.titleOf source t = String.ofList (Text.trim tail) ∧
      ∀ w ∈ words, w.kind.isInline := by
  rcases @Scan.exists_tokens_of_keyword? .english true loc gap cs written span tail c kind hgap hc
    hkeyword with ⟨words, hwords, hinline⟩
  refine ⟨_, words, hwords, rfl, ?_, hinline⟩
  have hsplit : c :: cs = span ++ tail := by
    have htakes := (Lexeme.takes_of_keyword? hkeyword).append_rest
    rw [List.append_nil] at htakes
    exact htakes.symm
  -- The title is read from the end of the keyword's span.
  rw [hsplit, List.append_assoc, List.append_assoc] at hat
  exact hat.past.past.textFrom_line hlf (Or.inr ⟨rest, Or.inl rfl⟩)

theorem ofList_trim_space_cons {text : String} (h : IsTitle text) :
    String.ofList (Text.trim (' ' :: text.toList)) = text := by
  have hspace : Text.trim ([' '] ++ text.toList) = Text.trim text.toList :=
    Text.trim_append_left_of_forall (by simpa using by decide) _
  rw [← List.singleton_append, hspace, h.1, String.ofList_toList]

/-! ## Steps -/

theorem exists_name_step (k : StepKeyword) :
    ∃ c cs, k.name.toList = c :: cs ∧ Text.isAlphabetic c ∧ '\n' ∉ k.name.toList := by
  cases k <;> exact ⟨_, _, rfl, by decide, by decide⟩

theorem prints_step (n : Nat) (k : StepKeyword) {text : String} (htext : IsTitle text) (hne : text ≠ "") :
    Prints source [(n, k.name.toList ++ ' ' :: text.toList)] [.step k text] := by
  rcases exists_name_step k with ⟨c, word, hword, hc, hlf⟩
  have hne' : text.toList ≠ [] := by simpa using hne
  have hcs : c :: (word ++ ' ' :: text.toList) = k.name.toList ++ ' ' :: text.toList := by
    rw [hword, List.cons_append]
  have hbody : (line (n, k.name.toList ++ ' ' :: text.toList)).body =
      List.replicate (2 * n) ' ' ++ c :: (word ++ ' ' :: text.toList) := by
    rw [body_line (by simp), hcs]
  apply Prints.of_line
  · have hspace : OnOneLine ([' '] ++ text.toList) :=
      (onOneLine_of_trim_eq htext.1 htext.2).append (by decide) hne'
    exact hspace.append hlf (by simp)
  · exact Scan.fence?_eq_none_of_isAlphabetic hbody isGap_of_mem_replicate hc
  · intro loc rest lineEnd ts es' hlineEnd hat hts
    rw [hbody] at hat ⊢
    have hlf' : '\n' ∉ ' ' :: text.toList := by simpa using htext.2
    rcases exists_tokens_of_keyword isGap_of_mem_replicate hc (Lexeme.keyword?_step hcs) hat hlf' with
      ⟨t, words, htokens, hkind, htitle, hinline⟩
    rw [htokens, List.cons_append]
    apply spells_cons
    · exact ⟨hkind, htitle.trans (ofList_trim_space_cons htext)⟩
    · show Spells source es' (Reader.skipLine (words ++ lineEnd :: ts))
      rw [skipLine_append_newline hinline hlineEnd]
      exact (spells_cons_newline hlineEnd).2 hts

end Printed

end Gherkin
