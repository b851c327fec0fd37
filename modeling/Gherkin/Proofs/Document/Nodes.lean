import Mathlib
import Gherkin.Document.Nodes
import Gherkin.Proofs.Document.Skipping

/-!
# What the nodes of a document stand for

In a document without a fault every token that is no line end, comment or free text belongs to one node of
the feature, and the nodes in their order take these tokens in theirs.
-/

namespace Gherkin

/-- Line ends, comments and free text belong to no node. -/
def Token.isSignificant (t : Token) : Bool :=
  t.kind ≠ .newline && t.kind ≠ .comment && !t.kind.isInline

/-- The tokens of a header: its tags, each of which the node has once, and its keyword. -/
def IsHeader (block : Block) (tags : List String) (loc : Location) (ts : List Token) : Prop :=
  ∃ run t, ts = run ++ [t] ∧ (∀ x ∈ run, x.kind = .tag) ∧ tags = (run.map Token.text).eraseDups ∧
    t.kind = .block block ∧ t.location = loc

/-- The tokens that are left of a node without what is below it. -/
def Node.StandsFor : Node → List Token → Prop
  | .feature f, ts => IsHeader .feature f.tags f.location ts
  | .background b, ts => ∃ t, ts = [t] ∧ t.kind = .block .background ∧ t.location = b.location
  | .scenario s, ts => IsHeader .scenario s.tags s.location ts
  | .outline o, ts => IsHeader .scenarioOutline o.tags o.location ts ∨
      (o.examples ≠ [] ∧ IsHeader .scenario o.tags o.location ts)
  | .examples e, ts => IsHeader .examples e.tags e.location ts
  | .step s, ts => ∃ t, ts = [t] ∧ t.kind = .step s.keyword ∧ t.location = s.location
  | .table data, ts => (∀ t ∈ ts, t.kind = .tableRow) ∧
      data.rows = ts.map (fun t => Table.splitCells t.text) ∧
      ts.head?.map Token.location = some data.location
  | .docString d, ts => ∃ t, ts = [t] ∧ t.kind = .docString ∧ d.content = t.text ∧
      d.contentType = t.contentType

namespace Reader

def significant (ts : List Token) : List Token := ts.filter Token.isSignificant

/-- The significant tokens of `ts`, up to those of `rest`, are those that the nodes stand for. -/
def Reads (nodes : List Node) (ts rest : List Token) : Prop :=
  ∃ parts, List.Forall₂ Node.StandsFor nodes parts ∧
    significant ts = parts.flatten ++ significant rest

section
variable {nodes more : List Node} {ts us rest : List Token}

theorem Reads.of_significant_eq (h : significant ts = significant rest) : Reads [] ts rest :=
  ⟨[], .nil, h⟩

theorem Reads.trans (h : Reads nodes ts us) (h' : Reads more us rest) :
    Reads (nodes ++ more) ts rest := by
  rcases h with ⟨parts, hparts, hts⟩
  rcases h' with ⟨parts', hparts', hus⟩
  refine ⟨parts ++ parts', List.rel_append hparts hparts', ?_⟩
  rw [hts, hus, List.flatten_append, List.append_assoc]

/-- A node before others. -/
theorem Reads.cons {node : Node} {part : List Token} (h : node.StandsFor part)
    (hts : significant ts = part ++ significant us) (hus : Reads nodes us rest) :
    Reads (node :: nodes) ts rest := by
  rcases hus with ⟨parts, hparts, hus⟩
  refine ⟨part :: parts, .cons h hparts, ?_⟩
  rw [hts, hus, List.flatten_cons, List.append_assoc]

theorem Reads.single {node : Node} {part : List Token} (h : node.StandsFor part)
    (hts : significant ts = part ++ significant rest) : Reads [node] ts rest :=
  Reads.cons h hts (Reads.of_significant_eq rfl)

theorem Reads.congr_left (h : Reads nodes us rest) (hts : significant ts = significant us) :
    Reads nodes ts rest := by
  rcases h with ⟨parts, hparts, hus⟩
  exact ⟨parts, hparts, hts.trans hus⟩

end

/-! ## Skips -/

theorem significant_append (ts us : List Token) :
    significant (ts ++ us) = significant ts ++ significant us :=
  List.filter_append ts us

theorem significant_cons_of_pos {t : Token} (h : t.isSignificant = true) (ts : List Token) :
    significant (t :: ts) = t :: significant ts :=
  List.filter_cons_of_pos h

theorem significant_cons_of_neg {t : Token} (h : t.isSignificant = false) (ts : List Token) :
    significant (t :: ts) = significant ts :=
  List.filter_cons_of_neg (by simp [h])

theorem not_isSignificant_of_isInline {t : Token} (h : t.kind.isInline) : t.isSignificant = false := by
  simp [Token.isSignificant, h]

theorem not_isSignificant_of_isGap {t : Token} (h : isGap t = true) : t.isSignificant = false := by
  unfold Token.isSignificant
  have hkind : t.kind = .newline ∨ t.kind = .comment := by simpa [isGap] using h
  rcases hkind with hkind | hkind <;> simp [hkind]

theorem significant_skipGaps (ts : List Token) : significant (skipGaps ts) = significant ts := by
  induction ts with
  | nil => rfl
  | cons t ts ih =>
    unfold skipGaps at ih ⊢
    by_cases hgap : isGap t = true
    · rw [List.dropWhile_cons_of_pos hgap, ih, significant_cons_of_neg (not_isSignificant_of_isGap hgap)]
    · rw [List.dropWhile_cons_of_neg hgap]

theorem significant_skipTags (ts : List Token) :
    significant ts = frontTags ts ++ significant (skipTags ts) := by
  induction ts with
  | nil => rfl
  | cons t ts ih =>
    unfold frontTags skipTags at ih ⊢
    by_cases hrun : inTagRun t = true
    · rw [List.dropWhile_cons_of_pos hrun, List.takeWhile_cons_of_pos hrun]
      by_cases htag : t.kind = .tag
      · have hsignificant : t.isSignificant = true := by
          simp [Token.isSignificant, htag, TokenKind.isInline]
        rw [List.filter_cons_of_pos (by simpa using htag), significant_cons_of_pos hsignificant, ih,
          List.cons_append]
      · have hgap : isGap t = true := by simpa [inTagRun, htag] using hrun
        rw [List.filter_cons_of_neg (by simpa using htag),
          significant_cons_of_neg (not_isSignificant_of_isGap hgap), ih]
    · rw [List.dropWhile_cons_of_neg hrun, List.takeWhile_cons_of_neg hrun, List.filter_nil,
        List.nil_append]

section
variable {d : Dialect} {source : List Char} {nameless : Prop}

theorem significant_skipLine {ts : List Token} (h : Laid (Scan.opensAs d source nameless) .words ts) :
    significant (skipLine ts) = significant ts := by
  rcases h.exists_words with ⟨words, hts, hwords⟩
  have hnone : significant words = [] := by
    apply List.filter_eq_nil_iff.2
    intro w hw
    simp [not_isSignificant_of_isInline (hwords w hw)]
  calc significant (skipLine ts) = significant words ++ significant (skipLine ts) := by
        rw [hnone, List.nil_append]
    _ = significant ts := by rw [← significant_append, ← hts]

/-- Lines of free text hold no other token where every `@` has a name. -/
theorem significant_descriptionLines (hnamed : ¬ nameless) (newlines : Nat) {ts : List Token}
    (h : ∃ s, s ≠ .tagged ∧ Laid (Scan.opensAs d source nameless) s ts) :
    significant (descriptionLines source newlines ts).2 = significant ts := by
  fun_induction descriptionLines source newlines ts with
  | case1 => rfl
  | case2 newlines t ts ht ih =>
    rcases h with ⟨s, -, s', hallows, hmore⟩
    rw [ih ⟨s', by simp [hallows.eq_start ht], hmore⟩,
      significant_cons_of_neg (not_isSignificant_of_isGap (by simp [isGap, ht]))]
  | case3 newlines t _ ht n ts hn ih =>
    rcases h with ⟨s, -, s', hallows, s'', hallows', hmore⟩
    rw [ih ⟨s'', by simp [hallows'.eq_start hn], hmore⟩,
      significant_cons_of_neg (not_isSignificant_of_isGap (by simp [isGap, ht])),
      significant_cons_of_neg (not_isSignificant_of_isGap (by simp [isGap, hn]))]
  | case4 newlines t _ ht n ts hn ih =>
    rcases h with ⟨s, -, s', hallows, hmore⟩
    rw [ih ⟨s', by simp [hallows.eq_ended ht], hmore⟩,
      significant_cons_of_neg (t := t) (not_isSignificant_of_isGap (by simp [isGap, ht]))]
  | case5 newlines t _ ht =>
    rw [significant_cons_of_neg (not_isSignificant_of_isGap (by simp [isGap, ht]))]
  | case6 newlines t ts _ _ hinline _ more rest hlines ih =>
    rcases h with ⟨s, hs, s', hallows, hmore⟩
    rw [hallows.eq_words hnamed hs hinline] at hmore
    rw [hlines] at ih
    rw [ih ⟨.words, by simp, hmore.skipLine⟩, significant_skipLine hmore,
      significant_cons_of_neg (not_isSignificant_of_isInline hinline)]
  | case7 => rfl

theorem significant_skipHeader (hnamed : ¬ nameless) {ts : List Token}
    (h : Laid (Scan.opensAs d source nameless) .words ts) :
    significant (skipHeader source ts) = significant ts := by
  unfold skipHeader skipDescription
  rw [significant_descriptionLines hnamed 0 ⟨.words, by simp, h.skipLine⟩, significant_skipLine h]

/-! ## Readers -/

theorem significant_rows (ts : List Token) :
    significant ts = (rows ts).1 ++ significant (rows ts).2 := by
  fun_induction rows ts with
  | case1 => rfl
  | case2 t ts ht _ more rest hrows ih =>
    rw [hrows] at ih
    have hsignificant : t.isSignificant = true := by simp [Token.isSignificant, ht, TokenKind.isInline]
    rw [significant_cons_of_pos hsignificant, ← significant_skipGaps ts, ih, List.cons_append]
  | case3 => rfl

theorem head?_rows {t : Token} (ht : t.kind = .tableRow) (ts : List Token) :
    (rows (t :: ts)).1.head? = some t := by
  rw [rows, if_pos ht]
  rfl

theorem reads_table {t : Token} (ht : t.kind = .tableRow) (ts : List Token) :
    Reads [.table (table t ts).value] (t :: ts) (table t ts).rest := by
  refine Reads.single ⟨fun u hu => (mem_rows u hu).2, rfl, ?_⟩ (significant_rows (t :: ts))
  rw [head?_rows ht]
  rfl

def argumentNodes (a : Option Table × Option DocString) : List Node :=
  a.1.toList.map Node.table ++ a.2.toList.map Node.docString

theorem reads_argument (source : List Char) (ts : List Token) :
    Reads (argumentNodes (argument source ts).value) ts (argument source ts).rest := by
  fun_cases argument source ts with
  | case1 => exact Reads.of_significant_eq rfl
  | case2 t ts ht => exact reads_table ht ts
  | case3 t ts _ ht =>
    refine Reads.single ⟨t, rfl, ht, rfl, rfl⟩ ?_
    exact significant_cons_of_pos (by simp [Token.isSignificant, ht, TokenKind.isInline]) ts
  | case4 t ts => exact Reads.of_significant_eq rfl

theorem reads_step {k : StepKeyword} {t : Token} {ts : List Token} (ht : t.kind = .step k)
    (h : Laid (Scan.opensAs d source nameless) .words ts) :
    Reads ((step source k t ts).value.walk fun _ => true) (t :: ts) (step source k t ts).rest := by
  have hsignificant : t.isSignificant = true := by simp [Token.isSignificant, ht, TokenKind.isInline]
  have hts : significant (t :: ts) = [t] ++ significant (skipGaps (skipLine ts)) := by
    rw [significant_skipGaps, significant_skipLine h, significant_cons_of_pos hsignificant,
      List.singleton_append]
  exact Reads.cons ⟨t, rfl, ht, rfl⟩ hts (reads_argument source (skipGaps (skipLine ts)))

theorem reads_steps {ts : List Token} (h : LaidOut (Scan.opensAs d source nameless) ts)
    (hclean : (steps source ts).errors = []) :
    Reads ((steps source ts).value.flatMap (Step.walk fun _ => true)) ts (steps source ts).rest := by
  fun_induction steps source ts with
  | case1 ts hgaps =>
    apply Reads.of_significant_eq
    rw [← significant_skipGaps, hgaps]
  | case2 ts t more hgaps k hk first _ others ih =>
    rcases List.append_eq_nil_iff.1 hclean with ⟨-, hothers⟩
    have hmore : t :: more <:+ ts := hgaps ▸ skipGaps_suffix ts
    have hrest : first.rest <:+ ts := suffix_of_skipGaps hgaps (step_suffix source k t more)
    have hwords := (h.of_suffix hmore).words_of_keyword (by rw [hk]; rfl)
    have hts : significant ts = significant (t :: more) := by rw [← hgaps, significant_skipGaps]
    exact ((reads_step hk hwords).congr_left hts).trans (ih (h.of_suffix hrest) hothers)
  | case3 => simp at hclean
  | case4 ts t more hgaps =>
    apply Reads.of_significant_eq
    rw [← significant_skipGaps, hgaps]

/-- The header of a part and the tags before it. -/
theorem isHeader_of_skipTags {block : Block} {loc : Location} {ts more : List Token} {t : Token}
    (hskip : skipTags ts = t :: more) (ht : t.kind = .block block) (hloc : t.location = loc) :
    IsHeader block (tagRun ts).tags loc (frontTags ts ++ [t]) ∧
      significant ts = (frontTags ts ++ [t]) ++ significant more := by
  refine ⟨⟨frontTags ts, t, rfl, fun x hx => kind_of_mem_frontTags hx, rfl, ht, hloc⟩, ?_⟩
  have hsignificant : t.isSignificant = true := by simp [Token.isSignificant, ht, TokenKind.isInline]
  rw [significant_skipTags, hskip, significant_cons_of_pos hsignificant, List.append_assoc,
    List.singleton_append]

theorem reads_examples (hnamed : ¬ nameless) {ts more : List Token} {t : Token}
    (hskip : skipTags ts = t :: more) (ht : t.kind = .block .examples)
    (h : Laid (Scan.opensAs d source nameless) .words more) :
    Reads ((examples source (tagRun ts).tags t more).value.walk fun _ => true) ts
      (examples source (tagRun ts).tags t more).rest := by
  have hmore : significant (skipGaps (skipHeader source more)) = significant more := by
    rw [significant_skipGaps, significant_skipHeader hnamed h]
  rcases isHeader_of_skipTags hskip ht rfl with ⟨hheader, hts⟩
  rw [← hmore] at hts
  unfold examples
  dsimp only
  split
  · rename_i a rest hrest
    rw [hrest] at hts
    split
    · rename_i ha
      exact Reads.cons hheader hts (reads_table ha rest)
    · exact Reads.single hheader hts
  · rename_i hrest
    rw [hrest] at hts
    exact Reads.single hheader hts

theorem reads_exampleBlocks (hnamed : ¬ nameless) {started : Bool} {ts : List Token}
    (h : LaidOut (Scan.opensAs d source nameless) ts)
    (hclean : (exampleBlocks source started ts).errors = []) :
    Reads ((exampleBlocks source started ts).value.flatMap (Examples.walk fun _ => true)) ts
      (exampleBlocks source started ts).rest := by
  fun_induction exampleBlocks source started ts with
  | case1 => exact Reads.of_significant_eq rfl
  | case2 started ts t more hskip _ hk first _ others ih =>
    rcases List.append_eq_nil_iff.1 hclean with ⟨-, hothers⟩
    have hmore : t :: more <:+ ts := hskip ▸ skipTags_suffix ts
    have hrest : first.rest <:+ ts := suffix_of_skipTags hskip (examples_suffix source _ t more)
    have hwords := (h.of_suffix hmore).words_of_keyword (by rw [hk]; rfl)
    exact (reads_examples hnamed hskip hk hwords).trans (ih (h.of_suffix hrest) hothers)
  | case3 => simp at hclean
  | case4 => exact Reads.of_significant_eq rfl
  | case5 => exact Reads.of_significant_eq rfl

theorem reads_child (hnamed : ¬ nameless) {ts more : List Token} {t : Token}
    (hskip : skipTags ts = t :: more)
    (ht : t.kind = .block .scenario ∨ t.kind = .block .scenarioOutline)
    (h : Laid (Scan.opensAs d source nameless) .words more)
    (hclean : (child source (tagRun ts).tags t more).errors = []) :
    Reads ((child source (tagRun ts).tags t more).value.walk fun _ => true) ts
      (child source (tagRun ts).tags t more).rest := by
  have hlaid : LaidOut (Scan.opensAs d source nameless) (skipHeader source more) :=
    LaidOut.of_suffix ⟨_, h⟩ (skipHeader_suffix source more)
  have hblocks := hlaid.of_suffix (steps_suffix source _)
  have hts : ∀ block, t.kind = .block block →
      IsHeader block (tagRun ts).tags t.location (frontTags ts ++ [t]) ∧
        significant ts = (frontTags ts ++ [t]) ++ significant (skipHeader source more) := by
    intro block hblock
    -- The description holds nothing significant, so the header alone comes before the steps.
    rw [significant_skipHeader hnamed h]
    exact isHeader_of_skipTags hskip hblock rfl
  unfold child at hclean ⊢
  dsimp only at hclean ⊢
  split
  · rename_i houtline
    rw [if_pos houtline] at hclean
    simp only [List.append_eq_nil_iff] at hclean
    have hbelow := (reads_steps hlaid hclean.1.1).trans (reads_exampleBlocks hnamed hblocks hclean.1.2)
    rcases ht with ht | ht
    · rcases hts _ ht with ⟨hheader, hsplit⟩
      -- A scenario with examples is an outline under the wrong keyword.
      have hexamples : (exampleBlocks source false
          (steps source (skipHeader source more)).rest).value ≠ [] := by
        simpa [ht] using houtline
      exact Reads.cons (Or.inr ⟨hexamples, hheader⟩) hsplit hbelow
    · rcases hts _ ht with ⟨hheader, hsplit⟩
      exact Reads.cons (Or.inl hheader) hsplit hbelow
  · rename_i houtline
    rw [if_neg houtline] at hclean
    simp only [List.append_eq_nil_iff] at hclean
    simp only [Bool.or_eq_true, decide_eq_true_eq, Bool.not_eq_true', not_or] at houtline
    have hnone : (exampleBlocks source false (steps source (skipHeader source more)).rest).value = [] := by
      simpa using houtline.2
    have hrest := reads_exampleBlocks hnamed hblocks hclean.2
    rw [hnone] at hrest
    have hbelow := (reads_steps hlaid hclean.1).trans hrest
    rw [List.flatMap_nil, List.append_nil] at hbelow
    rcases ht with ht | ht
    · rcases hts _ ht with ⟨hheader, hsplit⟩
      exact Reads.cons hheader hsplit hbelow
    · exact absurd ht houtline.1

theorem reads_background (hnamed : ¬ nameless) {ts more : List Token} {t : Token}
    (ht : t.kind = .block .background) (h : Laid (Scan.opensAs d source nameless) .words more)
    (hts : significant ts = significant (t :: more))
    (hclean : (background source t more).errors = []) :
    Reads ((background source t more).value.walk fun _ => true) ts (background source t more).rest := by
  have hlaid : LaidOut (Scan.opensAs d source nameless) (skipHeader source more) :=
    LaidOut.of_suffix ⟨_, h⟩ (skipHeader_suffix source more)
  have hsignificant : t.isSignificant = true := by simp [Token.isSignificant, ht, TokenKind.isInline]
  have hsplit : significant ts = [t] ++ significant (skipHeader source more) := by
    rw [hts, significant_cons_of_pos hsignificant, significant_skipHeader hnamed h,
      List.singleton_append]
  exact Reads.cons ⟨t, rfl, ht, rfl⟩ hsplit (reads_steps hlaid hclean)

def partNodes (f : Feature) : List Node :=
  f.background.toList.flatMap (Background.walk fun _ => true) ++
    f.children.flatMap (Child.walk fun _ => true)

theorem frontTags_eq_nil_of_stray {ts : List Token} (h : (tagRun ts).location = none) :
    frontTags ts = [] := by
  unfold tagRun at h
  rw [Option.map_eq_none_iff] at h
  exact List.head?_eq_none_iff.1 h

theorem reads_body (hnamed : ¬ nameless) {f : Feature} {ts : List Token}
    (h : LaidOut (Scan.opensAs d source nameless) ts) (hclean : (body source f ts).2 = []) :
    ∃ nodes, partNodes (body source f ts).1 = partNodes f ++ nodes ∧ Reads nodes ts [] := by
  fun_induction body source f ts with
  | case1 f ts run hskip =>
    refine ⟨[], by simp, Reads.of_significant_eq ?_⟩
    have hlocation : (tagRun ts).location = none := by simpa [TagRun.stray, run] using hclean
    rw [significant_skipTags, frontTags_eq_nil_of_stray hlocation, hskip]
    rfl
  | case2 f ts run t more hskip _ _ hk read _ tagged misplaced f' g errors hbody ih =>
    simp only [List.append_eq_nil_iff] at hclean
    rcases hclean with ⟨⟨⟨htagged, hmisplaced⟩, hread⟩, herrors⟩
    have hmore : t :: more <:+ ts := hskip ▸ skipTags_suffix ts
    have hrest : read.rest <:+ ts := suffix_of_skipTags hskip (background_suffix source t more)
    have hwords := (h.of_suffix hmore).words_of_keyword (by rw [hk]; rfl)
    have hlocation : (tagRun ts).location = none := by simpa [tagged, run] using htagged
    have hts : significant ts = significant (t :: more) := by
      rw [significant_skipTags, frontTags_eq_nil_of_stray hlocation, hskip, List.nil_append]
    rw [hbody] at ih
    rcases ih (h.of_suffix hrest) herrors with ⟨nodes, hnodes, hreads⟩
    -- Without a fault nothing of the feature comes before its background.
    have hfirst : f.background = none ∧ f.children = [] := by
      have hfault : backgroundFault? f = none := by simpa [misplaced] using hmisplaced
      unfold backgroundFault? at hfault
      by_cases hbackground : f.background.isSome
      · simp [hbackground] at hfault
      · by_cases hchildren : f.children = []
        · exact ⟨by simpa using hbackground, hchildren⟩
        · simp [hbackground, hchildren] at hfault
    refine ⟨read.value.walk (fun _ => true) ++ nodes, ?_,
      (reads_background hnamed hk hwords hts hread).trans hreads⟩
    rw [hnodes]
    simp [partNodes, f', hmisplaced, hfirst]
  | case3 f ts run t more hskip _ _ hk read _ g errors hbody ih
  | case4 f ts run t more hskip _ _ hk read _ g errors hbody ih =>
    rcases List.append_eq_nil_iff.1 hclean with ⟨hread, herrors⟩
    have hmore : t :: more <:+ ts := hskip ▸ skipTags_suffix ts
    have hrest : read.rest <:+ ts := suffix_of_skipTags hskip (child_suffix source run.tags t more)
    have hwords := (h.of_suffix hmore).words_of_keyword (by rw [hk]; rfl)
    rw [hbody] at ih
    rcases ih (h.of_suffix hrest) herrors with ⟨nodes, hnodes, hreads⟩
    refine ⟨read.value.walk (fun _ => true) ++ nodes, ?_,
      (reads_child hnamed hskip (by simp [hk]) hwords hread).trans hreads⟩
    rw [hnodes]
    simp [partNodes]
  | case5 => simp at hclean
  | case6 => simp at hclean

end

theorem header?_eq_of_headerFault {loc : Location} {ts : List Token} (h : headerFault loc ts = []) :
    ∃ t more, skipTags ts = t :: more ∧ t.kind = .block .feature ∧
      header? ts = some ((tagRun ts).tags, t, more) := by
  unfold headerFault at h
  cases hskip : skipTags ts with
  | nil => simp [hskip] at h
  | cons t more =>
    rw [hskip] at h
    by_cases ht : t.kind = .block .feature
    · exact ⟨t, more, rfl, ht, header?_of_feature hskip ht⟩
    · simp [ht] at h

end Reader

theorem ParseError.eq_nil_of_inOrder_eq_nil {errors : List ParseError}
    (h : ParseError.inOrder errors = []) : errors = [] := by
  have hlength := congrArg List.length h
  unfold inOrder at hlength
  rw [List.length_mergeSort] at hlength
  exact List.length_eq_zero_iff.1 hlength

/-- A source without a fault has no lexical error, and its document starts with the header of the feature. -/
theorem clean_of_parse {source : String} {p : Parsed} (hparse : parse source = .ok p)
    (hclean : p.errors = []) :
    ∃ t more, Reader.skipTags (Reader.live (tokens .english source)) = t :: more ∧
      t.kind = .block .feature ∧ lexicalErrors .english source = [] ∧
      let read := Reader.body source.toList
        { name := Reader.titleOf source.toList t
          description := Reader.headerDescription source.toList more
          tags := (Reader.tagRun (Reader.live (tokens .english source))).tags
          background := none
          children := []
          location := t.location } (Reader.skipHeader source.toList more)
      p.feature = read.1 ∧ read.2 = [] := by
  rcases exists_of_parse_eq_ok hparse with ⟨tags, t, more, hheader, hread⟩
  have herrors := ParseError.eq_nil_of_inOrder_eq_nil ((Prod.mk.inj hread).2.symm.trans hclean)
  simp only [List.append_eq_nil_iff, List.map_eq_nil_iff] at herrors
  rcases herrors with ⟨⟨hfault, hbody⟩, hlexical⟩
  rcases Reader.header?_eq_of_headerFault hfault with ⟨t', more', hskip, ht, hfirst⟩
  rw [hfirst] at hheader
  simp only [Option.some.injEq, Prod.mk.injEq] at hheader
  rcases hheader with ⟨rfl, rfl, rfl⟩
  exact ⟨t', more', hskip, ht, hlexical, (Prod.mk.inj hread).1, hbody⟩

/-- The nodes of a feature that is read without a fault take all significant tokens. -/
theorem Reader.reads_feature {source : String} {p : Parsed} (hparse : parse source = .ok p)
    (hclean : p.errors = []) : Reads p.feature.nodes (live (tokens .english source)) [] := by
  rcases clean_of_parse hparse hclean with ⟨t, more, hskip, ht, hlexical, hfeature, hbody⟩
  rcases laid_live source with ⟨finish, -, -, hlaid⟩
  have hnamed : ¬ ∃ e ∈ lexicalErrors .english source, e.fault = .missingTagName := by
    rw [hlexical]
    simp
  have hsuffix := skipTags_suffix (live (tokens .english source))
  rw [hskip] at hsuffix
  have hwords := (LaidOut.of_suffix ⟨_, hlaid⟩ hsuffix).words_of_keyword (by rw [ht]; rfl)
  have hrest : LaidOut _ (skipHeader source.toList more) :=
    LaidOut.of_suffix ⟨_, hwords⟩ (skipHeader_suffix source.toList more)
  rcases reads_body hnamed hrest hbody with ⟨nodes, hnodes, hreads⟩
  rcases exists_body_eq source.toList _ (skipHeader source.toList more) with
    ⟨background, children, hread⟩
  rcases isHeader_of_skipTags hskip ht rfl with ⟨hheader, hsplit⟩
  rw [← significant_skipHeader hnamed hwords] at hsplit
  have hnodes' : p.feature.nodes = .feature p.feature :: nodes := by
    show Node.feature p.feature :: partNodes p.feature = _
    rw [hfeature, hnodes]
    rfl
  have hstands : (Node.feature p.feature).StandsFor (frontTags (live (tokens .english source)) ++ [t]) := by
    rw [hfeature, hread]
    exact hheader
  rw [hnodes']
  exact Reads.cons hstands hsplit hreads

/-- In a source without a fault, the tokens before the end that are no line end, comment or free text are,
in order, those that the nodes of its feature stand for. -/
theorem nodes_stand_for_tokens (source : String) (p : Parsed) (hparse : parse source = .ok p)
    (hclean : p.errors = []) :
    ∃ parts, List.Forall₂ Node.StandsFor p.feature.nodes parts ∧
      parts.flatten = ((tokens .english source).takeWhile fun t => t.kind ≠ .eof).filter
        Token.isSignificant := by
  rcases Reader.reads_feature hparse hclean with ⟨parts, hparts, hall⟩
  refine ⟨parts, hparts, ?_⟩
  show parts.flatten = Reader.significant (Reader.live (tokens .english source))
  rw [hall]
  exact (List.append_nil _).symm

set_option maxRecDepth 16000 in
/-- A scenario with examples is an outline; the step and the examples have a table each. -/
theorem nodes_stand_for_tokens_of_examples :
    ∃ p, parse "Feature: f\n# words\n@t @t\nScenario: s\nGiven a <x>\n| y |\n@e\nExamples:\n| x |\n| 1 |\n" =
        .ok p ∧ p.errors = [] ∧
      p.feature.nodes.map Node.kind = [.feature, .outline, .step, .table, .examples, .table] ∧
      ∃ parts, List.Forall₂ Node.StandsFor p.feature.nodes parts ∧ parts.flatten = ((tokens .english
        "Feature: f\n# words\n@t @t\nScenario: s\nGiven a <x>\n| y |\n@e\nExamples:\n| x |\n| 1 |\n").takeWhile
          fun t => t.kind ≠ .eof).filter Token.isSignificant := by
  have hparse : parse
      "Feature: f\n# words\n@t @t\nScenario: s\nGiven a <x>\n| y |\n@e\nExamples:\n| x |\n| 1 |\n" =
      .ok ⟨⟨"f", none, [], none, [.outline ⟨"s", none, ["@t"],
        [⟨.given, "a <x>", some ⟨[["y"]], ⟨6, 1, 49⟩⟩, none, ⟨5, 1, 37⟩⟩],
        [⟨none, none, ["@e"], some ⟨[["x"], ["1"]], ⟨9, 1, 68⟩⟩, ⟨8, 1, 58⟩⟩], ⟨4, 1, 25⟩⟩], ⟨1, 1, 0⟩⟩,
        []⟩ := by
    rw [parse_eq]
    cbv
  exact ⟨_, hparse, rfl, rfl, nodes_stand_for_tokens _ _ hparse rfl⟩

end Gherkin
