import Gherkin.Proofs.Document.WellFormed

/-!
# Documents without a fault can be printed

A reader that meets no fault builds a printable part, as long as the source holds no blanks but spaces, tabs
and line feeds and no row without a cell.
-/

namespace Gherkin

/-! ## Descriptions -/

theorem getLast?_joined {first : String} {more : List (Nat × String)} (hfirst : first ≠ "")
    (hmore : ∀ x ∈ more, x.2 ≠ "") :
    (first :: more.flatMap fun (newlines, line) =>
      List.replicate (newlines - 1) "" ++ [line]).getLast? ≠ some "" := by
  intro h
  rcases List.eq_nil_or_concat more with rfl | ⟨before, x, rfl⟩
  · exact hfirst (by simpa using h)
  · rw [List.concat_eq_append, List.flatMap_append, List.flatMap_singleton, ← List.append_assoc,
      ← List.cons_append, List.getLast?_concat] at h
    exact hmore x (by simp) (Option.some.inj h)

theorem isDescription_joinDescription {ls : List (Nat × String)}
    (h : ∀ x ∈ ls, x.2 ≠ "" ∧ IsProseLine x.2.toList) :
    ∀ d ∈ Reader.joinDescription ls, IsDescription d := by
  intro d hd
  cases ls with
  | nil => simp [Reader.joinDescription] at hd
  | cons x more =>
    rcases h x List.mem_cons_self with ⟨hfirst, hprose⟩
    have hmore : ∀ y ∈ more, y.2 ≠ "" ∧ IsProseLine y.2.toList :=
      fun y hy => h y (List.mem_cons_of_mem x hy)
    let joined := x.2 :: more.flatMap fun (newlines, line) => List.replicate (newlines - 1) "" ++ [line]
    have hjoined : String.intercalate "\n" joined = d := Option.some.inj hd
    refine ⟨joined.map String.toList, ⟨?_, ?_, ?_⟩, ?_⟩
    · exact ⟨_, _, List.map_cons, by simpa using hfirst⟩
    · rw [List.getLast?_map]
      intro hlast
      rcases Option.map_eq_some_iff.1 hlast with ⟨s, hs, hempty⟩
      rw [String.toList_eq_nil_iff] at hempty
      rw [hempty] at hs
      exact getLast?_joined hfirst (fun y hy => (hmore y hy).1) hs
    · intro l hl hne
      rcases List.mem_map.1 hl with ⟨s, hs, rfl⟩
      rcases List.mem_cons.1 hs with rfl | hs
      · exact hprose
      · rcases List.mem_flatMap.1 hs with ⟨y, hy, hs⟩
        rcases List.mem_append.1 hs with hs | hs
        · rw [List.eq_of_mem_replicate hs] at hne
          exact absurd rfl hne
        · rw [List.mem_singleton.1 hs]
          exact (hmore y hy).2
    · rw [← hjoined, String.toList_intercalate]
      rfl

namespace Reader

section
variable {source : String} {nameless : Prop}

theorem not_isInline_head_skipLine (ts : List Token) : ∀ t ∈ (skipLine ts).head?, ¬ t.kind.isInline := by
  intro t ht hinline
  have hhead := List.head?_dropWhile_not (fun t : Token => decide (t.kind ≠ .newline)) ts
  rw [show (ts.dropWhile fun t => decide (t.kind ≠ .newline)).head? = some t from ht] at hhead
  have hkind : t.kind = .newline := by simpa using hhead
  rw [hkind] at hinline
  simp [TokenKind.isInline] at hinline

/-- Free text that a description is read from starts its line. -/
theorem prose_descriptionLines (hblanks : PlainBlanks source.toList) (hnamed : ¬ nameless) {n : Nat}
    {ts : List Token} (h : ∃ s, s ≠ .tagged ∧
      Laid (Scan.opensAs .english source.toList nameless) s ts ∧
      (s = .words → ∀ t ∈ ts.head?, ¬ t.kind.isInline)) :
    ∀ x ∈ (descriptionLines source.toList n ts).1, x.2 ≠ "" ∧ IsProseLine x.2.toList := by
  fun_induction descriptionLines source.toList n ts with
  | case1 => simp
  | case2 n t ts ht ih =>
    rcases h with ⟨s, -, ⟨s', hallows, hmore⟩, -⟩
    exact ih ⟨s', by simp [hallows.eq_start ht], hmore, by simp [hallows.eq_start ht]⟩
  | case3 n t _ ht u ts hu ih =>
    rcases h with ⟨s, -, ⟨s', hallows, s'', hallows', hmore⟩, -⟩
    exact ih ⟨s'', by simp [hallows'.eq_start hu], hmore, by simp [hallows'.eq_start hu]⟩
  | case4 n t _ ht u ts hu ih =>
    rcases h with ⟨s, -, ⟨s', hallows, hmore⟩, -⟩
    exact ih ⟨s', by simp [hallows.eq_ended ht], hmore, by simp [hallows.eq_ended ht]⟩
  | case5 => simp
  | case6 n t ts _ _ hinline _ more rest hlines ih =>
    rcases h with ⟨s, hs, ⟨s', hallows, hmore⟩, hwords⟩
    have hopens : t.Opens .english source.toList :=
      hallows.opens_prose hnamed hs (fun hw => hwords hw t rfl hinline) hinline
    rw [hallows.eq_words hnamed hs hinline] at hmore
    rw [hlines] at ih
    have hothers := ih ⟨.words, by simp, hmore.skipLine, fun _ => not_isInline_head_skipLine ts⟩
    intro x hx
    rcases List.mem_cons.1 hx with rfl | hx
    · exact isProseLine_textFrom hblanks hopens
    · exact hothers x hx
  | case7 => simp

theorem isDescription_headerDescription (hblanks : PlainBlanks source.toList) (hnamed : ¬ nameless)
    {ts : List Token} (h : Laid (Scan.opensAs .english source.toList nameless) .words ts) :
    ∀ d ∈ headerDescription source.toList ts, IsDescription d := by
  apply isDescription_joinDescription
  exact prose_descriptionLines hblanks hnamed
    ⟨.words, by simp, h.skipLine, fun _ => not_isInline_head_skipLine ts⟩

end

/-! ## Parts -/

/-- A source whose blanks are plain, whose tags have names and whose rows have cells. -/
structure Plain (source : String) : Prop where
  blanks : PlainBlanks source.toList
  named : ¬ ∃ e ∈ lexicalErrors .english source, e.fault = .missingTagName
  cells : ∀ t ∈ live (tokens .english source), t.kind = .tableRow → Table.splitCells t.text ≠ []

section
variable {source : String} {ts more : List Token} {t : Token}

theorem laid_words (hts : t :: more <:+ live (tokens .english source)) (ht : t.kind.isKeyword) :
    Laid (Scan.opensAs .english source.toList
      (∃ e ∈ lexicalErrors .english source, e.fault = .missingTagName)) .words more := by
  rcases laid_live source with ⟨finish, -, -, hlaid⟩
  exact (LaidOut.of_suffix ⟨_, hlaid⟩ hts).words_of_keyword ht

theorem isDescription_of_keyword (hsource : Plain source)
    (hts : t :: more <:+ live (tokens .english source)) (ht : t.kind.isKeyword) :
    ∀ d ∈ headerDescription source.toList more, IsDescription d :=
  isDescription_headerDescription hsource.blanks hsource.named (laid_words hts ht)

theorem areTags_tagRun (hts : ts <:+ live (tokens .english source)) : AreTags (tagRun ts).tags := by
  refine ⟨nodup_eraseDups _, ?_⟩
  intro s hs
  rcases List.mem_map.1 (List.mem_eraseDups.1 hs) with ⟨x, hx, rfl⟩
  have hmem : x ∈ ts := (List.takeWhile_prefix _).subset (List.mem_of_mem_filter hx)
  exact isTag_of_mem_tokens (mem_tokens_of_mem_live (hts.subset hmem)) (kind_of_mem_frontTags hx)

theorem printable_optionalTitleOf (source : List Char) (t : Token) :
    ∀ s ∈ optionalTitleOf source t, IsTitle s ∧ s ≠ "" := by
  intro s hs
  unfold optionalTitleOf at hs
  dsimp only at hs
  split at hs
  · simp at hs
  · rename_i hempty
    rw [← Option.some.inj hs]
    exact ⟨isTitle_textFrom _ _, by simpa using hempty⟩

theorem printable_table (hsource : Plain source) (hts : t :: ts <:+ live (tokens .english source))
    (ht : t.kind = .tableRow) (hclean : (table t ts).errors = []) : (table t ts).value.Printable := by
  have hwell := wellFormed_table ht hclean
  refine ⟨hwell.rows, hwell.square, ?_, hwell.trimmed⟩
  intro hnil
  rcases List.mem_map.1 hnil with ⟨x, hx, hcells⟩
  rcases mem_rows x hx with ⟨hmem, hkind⟩
  exact hsource.cells x (hts.subset hmem) hkind hcells

theorem printable_argument (hsource : Plain source) (hts : ts <:+ live (tokens .english source))
    (hclean : (argument source.toList ts).errors = []) :
    ∀ data ∈ (argument source.toList ts).value.1, data.Printable := by
  fun_cases argument source.toList ts with
  | case1 => simp
  | case2 t ts ht =>
    unfold argument at hclean
    rw [if_pos ht] at hclean
    intro data hdata
    rw [← Option.some.inj hdata]
    exact printable_table hsource hts ht hclean
  | case3 => simp
  | case4 => simp

-- A doc string is printable whatever source it is read from.
theorem printable_of_mem_argument (hts : ts <:+ live (tokens .english source)) :
    ∀ d ∈ (argument source.toList ts).value.2, d.Printable := by
  fun_cases argument source.toList ts with
  | case1 => simp
  | case2 => simp
  | case3 t ts _ ht =>
    intro d hd
    rw [← Option.some.inj hd]
    have hmem := mem_tokens_of_mem_live (hts.subset (List.mem_cons_self (a := t)))
    exact printable_docString hmem ht
  | case4 => simp

theorem printable_step (hsource : Plain source) {k : StepKeyword}
    (hts : t :: more <:+ live (tokens .english source))
    (hclean : (step source.toList k t more).errors = []) :
    (step source.toList k t more).value.Printable := by
  have hwell := wellFormed_step hclean
  have hgaps : skipGaps (skipLine more) <:+ live (tokens .english source) :=
    ((skipGaps_suffix _).trans (skipLine_suffix more)).trans ((List.suffix_cons t more).trans hts)
  have htable := printable_argument hsource hgaps (List.append_eq_nil_iff.1 hclean).2
  exact ⟨hwell.text, hwell.nonempty, htable, printable_of_mem_argument hgaps, hwell.single⟩

theorem printable_steps (hsource : Plain source) (hts : ts <:+ live (tokens .english source))
    (hclean : (steps source.toList ts).errors = []) :
    ∀ x ∈ (steps source.toList ts).value, x.Printable := by
  intro x hx
  rcases exists_of_mem_steps hx with ⟨k, t, more, hmore, rfl, herrors⟩
  exact printable_step hsource (hmore.trans hts) (herrors hclean)

theorem printable_examples (hsource : Plain source) {tags : List String} (htags : AreTags tags)
    (hts : t :: more <:+ live (tokens .english source)) (ht : t.kind = .block .examples)
    (hclean : (examples source.toList tags t more).errors = []) :
    (examples source.toList tags t more).value.Printable := by
  have hname := printable_optionalTitleOf source.toList t
  have hdescription := isDescription_of_keyword hsource hts (by rw [ht]; rfl)
  have hgaps : skipGaps (skipHeader source.toList more) <:+ live (tokens .english source) :=
    ((skipGaps_suffix _).trans (skipHeader_suffix _ more)).trans ((List.suffix_cons t more).trans hts)
  unfold examples at hclean ⊢
  dsimp only at hclean ⊢
  split
  · rename_i a rest hrest
    rw [hrest] at hclean hgaps
    dsimp only at hclean
    split
    · rename_i ha
      rw [if_pos ha] at hclean
      refine ⟨hname, hdescription, htags, ?_⟩
      intro data hdata
      rw [← Option.some.inj hdata]
      exact printable_table hsource hgaps ha hclean
    · exact ⟨hname, hdescription, htags, by simp⟩
  · exact ⟨hname, hdescription, htags, by simp⟩

theorem printable_exampleBlocks (hsource : Plain source) {started : Bool}
    (hts : ts <:+ live (tokens .english source))
    (hclean : (exampleBlocks source.toList started ts).errors = []) :
    ∀ x ∈ (exampleBlocks source.toList started ts).value, x.Printable := by
  intro x hx
  rcases exists_of_mem_exampleBlocks hx hclean with ⟨before, t, more, hbefore, hskip, hk, rfl, herrors⟩
  have hmore : t :: more <:+ before := hskip ▸ skipTags_suffix before
  exact printable_examples hsource (areTags_tagRun (hbefore.trans hts))
    ((hmore.trans hbefore).trans hts) hk herrors

theorem printable_child (hsource : Plain source) {tags : List String} (htags : AreTags tags)
    (hts : t :: more <:+ live (tokens .english source)) (ht : t.kind.isKeyword)
    (hclean : (child source.toList tags t more).errors = []) :
    (child source.toList tags t more).value.Printable := by
  have hdescription := isDescription_of_keyword hsource hts ht
  have hskip : skipHeader source.toList more <:+ live (tokens .english source) :=
    (skipHeader_suffix _ more).trans ((List.suffix_cons t more).trans hts)
  have hrest := (steps_suffix source.toList (skipHeader source.toList more)).trans hskip
  unfold child at hclean ⊢
  dsimp only at hclean ⊢
  split
  · rename_i houtline
    rw [if_pos houtline] at hclean
    simp only [List.append_eq_nil_iff] at hclean
    rcases hclean with ⟨⟨hsteps, hblocks⟩, hcheck⟩
    exact Outline.Printable.mk (isTitle_textFrom _ _) hdescription htags
      (printable_steps hsource hskip hsteps) (printable_exampleBlocks hsource hrest hblocks) hcheck
  · rename_i houtline
    rw [if_neg houtline] at hclean
    simp only [List.append_eq_nil_iff] at hclean
    exact Scenario.Printable.mk (isTitle_textFrom _ _) hdescription htags
      (printable_steps hsource hskip hclean.1)

theorem printable_background (hsource : Plain source)
    (hts : t :: more <:+ live (tokens .english source)) (ht : t.kind = .block .background)
    (hclean : (background source.toList t more).errors = []) :
    (background source.toList t more).value.Printable := by
  have hskip : skipHeader source.toList more <:+ live (tokens .english source) :=
    (skipHeader_suffix _ more).trans ((List.suffix_cons t more).trans hts)
  exact ⟨printable_optionalTitleOf _ t, isDescription_of_keyword hsource hts (by rw [ht]; rfl),
    printable_steps hsource hskip hclean⟩

theorem printable_body (hsource : Plain source) {f : Feature} (hf : f.Printable)
    (hts : ts <:+ live (tokens .english source)) (hclean : (body source.toList f ts).2 = []) :
    (body source.toList f ts).1.Printable := by
  refine holds_body hf ?_ ?_ hclean
  · intro g t more hmore hk herrors hg
    refine ⟨hg.name, hg.description, hg.tags, ?_, hg.children⟩
    intro b hb
    rw [← Option.some.inj hb]
    exact printable_background hsource (hmore.trans hts) hk herrors
  · intro g before t more hbefore hskip hk herrors hg
    have hmore : t :: more <:+ before := hskip ▸ skipTags_suffix before
    refine ⟨hg.name, hg.description, hg.tags, hg.background, ?_⟩
    intro c hc
    rcases List.mem_append.1 hc with hc | hc
    · exact hg.children c hc
    · rw [List.mem_singleton.1 hc]
      exact printable_child hsource (areTags_tagRun (hbefore.trans hts))
        ((hmore.trans hbefore).trans hts) hk herrors

end

end Reader

/-! ## Features -/

theorem IsHeader.kind_ne_tableRow {block : Block} {tags : List String} {loc : Location} {ts : List Token}
    (h : IsHeader block tags loc ts) : ∀ t ∈ ts, t.kind ≠ .tableRow := by
  rcases h with ⟨run, u, rfl, hrun, -, hu, -⟩
  intro t ht hkind
  rcases List.mem_append.1 ht with ht | ht
  · rw [hrun t ht] at hkind
    simp at hkind
  · rw [List.mem_singleton.1 ht, hu] at hkind
    simp at hkind

theorem Node.StandsFor.exists_table {node : Node} {part : List Token} (h : node.StandsFor part) {t : Token}
    (ht : t ∈ part) (hkind : t.kind = .tableRow) :
    ∃ data, node = .table data ∧ Table.splitCells t.text ∈ data.rows := by
  cases node with
  | feature | scenario | examples =>
    have hheader : IsHeader _ _ _ part := h
    exact absurd hkind (hheader.kind_ne_tableRow t ht)
  | outline =>
    rcases h with h | ⟨-, h⟩
    · exact absurd hkind (h.kind_ne_tableRow t ht)
    · exact absurd hkind (h.kind_ne_tableRow t ht)
  | background | step =>
    rcases h with ⟨u, rfl, hu, -⟩
    rw [List.mem_singleton.1 ht, hu] at hkind
    simp at hkind
  | docString =>
    rcases h with ⟨u, rfl, hu, -⟩
    rw [List.mem_singleton.1 ht, hu] at hkind
    simp at hkind
  | table data =>
    refine ⟨data, rfl, ?_⟩
    rw [h.2.1]
    exact List.mem_map_of_mem ht

theorem exists_of_mem_flatten {nodes : List Node} {parts : List (List Token)}
    (h : List.Forall₂ Node.StandsFor nodes parts) {t : Token} (ht : t ∈ parts.flatten) :
    ∃ node ∈ nodes, ∃ part, node.StandsFor part ∧ t ∈ part := by
  induction h with
  | nil => simp at ht
  | @cons node part nodes parts hnode hmore ih =>
    rw [List.flatten_cons] at ht
    rcases List.mem_append.1 ht with ht | ht
    · exact ⟨node, List.mem_cons_self, part, hnode, ht⟩
    · rcases ih ht with ⟨node', hnode', hpart⟩
      exact ⟨node', List.mem_cons_of_mem node hnode', hpart⟩

/-- A source that is read without a fault, with plain blanks and no row without a cell, gives a printable
feature. -/
theorem printable_of_parse {source : String} {p : Parsed} (hparse : parse source = .ok p)
    (hclean : p.errors = []) (hblanks : PlainBlanks source.toList)
    (hcells : ∀ data, Node.table data ∈ p.feature.nodes → [] ∉ data.rows) : p.feature.Printable := by
  rcases clean_of_parse hparse hclean with ⟨t, more, hskip, ht, hlexical, hfeature, hbody⟩
  have hsource : Reader.Plain source := by
    refine ⟨hblanks, by rw [hlexical]; simp, ?_⟩
    intro row hrow hkind hnil
    rcases Reader.reads_feature hparse hclean with ⟨parts, hparts, hall⟩
    have hsignificant : row ∈ Reader.significant (Reader.live (tokens .english source)) :=
      List.mem_filter.2 ⟨hrow, by simp [Token.isSignificant, hkind, TokenKind.isInline]⟩
    rw [hall] at hsignificant
    have hmem : row ∈ parts.flatten := by simpa [Reader.significant] using hsignificant
    rcases exists_of_mem_flatten hparts hmem with ⟨node, hnode, part, hstands, hpart⟩
    rcases hstands.exists_table hpart hkind with ⟨data, rfl, hdata⟩
    rw [hnil] at hdata
    exact hcells data hnode hdata
  have hsuffix : t :: more <:+ Reader.live (tokens .english source) := hskip ▸ Reader.skipTags_suffix _
  have hrest : Reader.skipHeader source.toList more <:+ Reader.live (tokens .english source) :=
    (Reader.skipHeader_suffix _ more).trans ((List.suffix_cons t more).trans hsuffix)
  rw [hfeature]
  apply Reader.printable_body hsource ?_ hrest hbody
  exact ⟨isTitle_textFrom _ _, Reader.isDescription_of_keyword hsource hsuffix (by rw [ht]; rfl),
    Reader.areTags_tagRun (List.suffix_refl _), by simp, by simp⟩

end Gherkin
