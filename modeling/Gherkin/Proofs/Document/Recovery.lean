import Mathlib
import Gherkin.Proofs.Document.Skipping

/-!
# Recovery after faults

Whatever the faults of a document, its feature has one child for each header of a scenario or an outline,
with the tags right before the header.  Only tags on a line that is read as part of a description are lost:
such a line starts with free text, and tags follow free text only where an `@` without a name starts it.
-/

namespace Gherkin

namespace Reader

/-! ## Headers and their tags -/

def isChildHeader (t : Token) : Bool :=
  t.kind = .block .scenario || t.kind = .block .scenarioOutline

/-- The headers of scenarios and outlines, each with the tags right before it, line ends and comments
aside.  `run` holds the tags right before the tokens. -/
def taggedHeaders (run : List Token) : List Token → List (List Token × Token)
  | [] => []
  | t :: ts =>
    if isGap t then taggedHeaders run ts
    else if t.kind = .tag then taggedHeaders (run ++ [t]) ts
    else if isChildHeader t then (run, t) :: taggedHeaders [] ts
    else taggedHeaders [] ts

/-- The headers that a description is read after.  A second feature is a fault, and none is read there. -/
def opensDescription (t : Token) : Bool := t.kind.isBlock && t.kind ≠ .block .feature

/-- What a reader makes of free text at the front of the tokens: a fault, a line of a description, or more of
the line it is on. -/
inductive Prose where
  | refused
  | expected
  | inside
deriving DecidableEq, Repr

/-- The tokens without the lines of descriptions. -/
def outsideDescriptions : Prose → List Token → List Token
  | _, [] => []
  | .inside, t :: ts =>
    if t.kind = .newline then t :: outsideDescriptions .expected ts
    else outsideDescriptions .inside ts
  | .expected, t :: ts =>
    if t.kind.isInline then outsideDescriptions .inside ts
    else if isGap t || opensDescription t then t :: outsideDescriptions .expected ts
    else t :: outsideDescriptions .refused ts
  | .refused, t :: ts =>
    if opensDescription t then t :: outsideDescriptions .expected ts
    else t :: outsideDescriptions .refused ts

def ahead (prose : Prose) (run : List Token) (ts : List Token) : List (List Token × Token) :=
  taggedHeaders run (outsideDescriptions prose ts)

theorem kind_of_isChildHeader {t : Token} (h : isChildHeader t = true) :
    t.kind = .block .scenario ∨ t.kind = .block .scenarioOutline := by
  simpa [isChildHeader] using h

theorem kind_of_isGap {t : Token} (h : isGap t = true) : t.kind = .newline ∨ t.kind = .comment := by
  simpa [isGap] using h

theorem not_isInline_of_isGap {t : Token} (h : isGap t = true) : t.kind.isInline = false := by
  rcases kind_of_isGap h with hkind | hkind
  · rw [hkind]
    rfl
  · rw [hkind]
    rfl

theorem not_opensDescription_of_isGap {t : Token} (h : isGap t = true) : opensDescription t = false := by
  rcases kind_of_isGap h with hkind | hkind <;> simp [opensDescription, hkind, TokenKind.isBlock]

/-! ## One token -/

section
variable {run ts : List Token} {t : Token}

theorem ahead_refused_gap (h : isGap t = true) : ahead .refused run (t :: ts) = ahead .refused run ts := by
  simp [ahead, outsideDescriptions, not_opensDescription_of_isGap h, taggedHeaders, h]

theorem ahead_expected_gap (h : isGap t = true) :
    ahead .expected run (t :: ts) = ahead .expected run ts := by
  simp [ahead, outsideDescriptions, not_isInline_of_isGap h, taggedHeaders, h]

theorem ahead_tag (h : t.kind = .tag) :
    ahead .refused run (t :: ts) = ahead .refused (run ++ [t]) ts := by
  simp [ahead, outsideDescriptions, opensDescription, TokenKind.isBlock, taggedHeaders, isGap, h]

theorem ahead_childHeader (h : isChildHeader t = true) :
    ahead .refused run (t :: ts) = (run, t) :: ahead .expected [] ts := by
  rcases kind_of_isChildHeader h with hkind | hkind <;>
    simp [ahead, outsideDescriptions, opensDescription, TokenKind.isBlock, taggedHeaders, isGap,
      isChildHeader, hkind]

/-- A header of another part. -/
theorem ahead_otherHeader (h : t.kind = .block .background ∨ t.kind = .block .examples) :
    ahead .refused run (t :: ts) = ahead .expected [] ts := by
  rcases h with hkind | hkind <;>
    simp [ahead, outsideDescriptions, opensDescription, TokenKind.isBlock, taggedHeaders, isGap,
      isChildHeader, hkind]

/-- Any other token ends a run of tags. -/
theorem ahead_other (hgap : isGap t = false) (htag : t.kind ≠ .tag) (hopens : opensDescription t = false) :
    ahead .refused run (t :: ts) = ahead .refused [] ts := by
  have hheader : ¬ isChildHeader t = true := by
    intro hheader
    rcases kind_of_isChildHeader hheader with hkind | hkind <;>
      simp [opensDescription, TokenKind.isBlock, hkind] at hopens
  simp [ahead, outsideDescriptions, taggedHeaders, hgap, htag, hopens, hheader]

theorem ahead_nil_cons (htag : t.kind ≠ .tag) (hopens : opensDescription t = false) :
    ahead .refused [] (t :: ts) = ahead .refused [] ts := by
  by_cases hgap : isGap t = true
  · exact ahead_refused_gap hgap
  · exact ahead_other (by simpa using hgap) htag hopens

/-- Where no free text comes, it does not matter what is made of it. -/
theorem ahead_expected_eq (hgap : isGap t = false) (hinline : t.kind.isInline = false) :
    ahead .expected run (t :: ts) = ahead .refused run (t :: ts) := by
  unfold ahead outsideDescriptions
  by_cases hopens : opensDescription t = true
  · simp [hinline, hopens]
  · simp [hinline, hopens, hgap]

theorem ahead_inside (run ts : List Token) :
    ahead .inside run ts = ahead .expected run (skipLine ts) := by
  induction ts with
  | nil => rfl
  | cons t ts ih =>
    unfold skipLine at ih ⊢
    by_cases hkind : t.kind = .newline
    · rw [List.dropWhile_cons_of_neg (by simpa using hkind)]
      have hgap : isGap t = true := by simp [isGap, hkind]
      rw [ahead_expected_gap hgap]
      simp [ahead, outsideDescriptions, taggedHeaders, hkind, hgap]
    · rw [List.dropWhile_cons_of_pos (by simpa using hkind), ← ih]
      simp [ahead, outsideDescriptions, hkind]

theorem ahead_expected_inline (h : t.kind.isInline) :
    ahead .expected run (t :: ts) = ahead .expected run (skipLine ts) := by
  rw [← ahead_inside]
  simp [ahead, outsideDescriptions, h]

end

/-! ## Skips -/

theorem ahead_nil_append {before : List Token} (ts : List Token)
    (h : ∀ t ∈ before, t.kind ≠ .tag ∧ opensDescription t = false) :
    ahead .refused [] (before ++ ts) = ahead .refused [] ts := by
  induction before with
  | nil => rfl
  | cons t before ih =>
    have ht := h t List.mem_cons_self
    rw [List.cons_append, ahead_nil_cons ht.1 ht.2]
    exact ih fun u hu => h u (List.mem_cons_of_mem t hu)

theorem ahead_skipGaps (run ts : List Token) :
    ahead .refused run (skipGaps ts) = ahead .refused run ts := by
  induction ts with
  | nil => rfl
  | cons t ts ih =>
    unfold skipGaps at ih ⊢
    by_cases hgap : isGap t = true
    · rw [List.dropWhile_cons_of_pos hgap, ih, ahead_refused_gap hgap]
    · rw [List.dropWhile_cons_of_neg hgap]

/-- Everything a synchronization skips is neither a tag nor a header. -/
theorem ahead_synchronize (ts : List Token) :
    ahead .refused [] (synchronize ts) = ahead .refused [] ts := by
  have hts : ts.takeWhile (fun t => !isAnchor t) ++ synchronize ts = ts :=
    List.takeWhile_append_dropWhile
  rw [← ahead_nil_append (synchronize ts) fun t ht => ?_, hts]
  have hanchor : isAnchor t = false := by simpa using List.mem_takeWhile_imp ht
  unfold isAnchor at hanchor
  unfold opensDescription
  split at hanchor
  · simp at hanchor
  · simp at hanchor
  · simp at hanchor
  · simp at hanchor
  · simp at hanchor
  · rename_i hscenario houtline hexamples hbackground htag
    refine ⟨htag, ?_⟩
    cases hkind : t.kind with
    | block b => cases b <;> simp_all
    | _ => rfl

theorem ahead_skipTags (run ts : List Token) :
    ahead .refused (run ++ frontTags ts) (skipTags ts) = ahead .refused run ts := by
  induction ts generalizing run with
  | nil => simp [frontTags, skipTags]
  | cons t ts ih =>
    unfold frontTags skipTags at ih ⊢
    by_cases hrun : inTagRun t = true
    · rw [List.dropWhile_cons_of_pos hrun, List.takeWhile_cons_of_pos hrun]
      by_cases htag : t.kind = .tag
      · rw [List.filter_cons_of_pos (by simpa using htag), ahead_tag htag, ← ih, List.append_assoc,
          List.singleton_append]
      · have hgap : isGap t = true := by simpa [inTagRun, htag] using hrun
        rw [List.filter_cons_of_neg (by simpa using htag), ih, ahead_refused_gap hgap]
    · rw [List.dropWhile_cons_of_neg hrun, List.takeWhile_cons_of_neg hrun, List.filter_nil,
        List.append_nil]

theorem ahead_descriptionLines (source : List Char) (newlines : Nat) (ts : List Token) :
    ahead .refused [] (descriptionLines source newlines ts).2 = ahead .expected [] ts := by
  fun_induction descriptionLines source newlines ts with
  | case1 => rfl
  | case2 _ t ts ht ih => rw [ih, ahead_expected_gap (by simp [isGap, ht])]
  | case3 _ t _ ht n ts hn ih =>
    rw [ih, ahead_expected_gap (by simp [isGap, ht]), ahead_expected_gap (by simp [isGap, hn])]
  | case4 _ t _ ht n ts hn ih => rw [ih, ahead_expected_gap (t := t) (by simp [isGap, ht])]
  | case5 _ t _ ht => rw [ahead_expected_gap (by simp [isGap, ht])]; rfl
  | case6 _ t ts _ _ hinline _ more rest h ih =>
    rw [h] at ih
    rw [ih, ahead_expected_inline hinline]
  | case7 _ t ts hnewline hcomment hinline =>
    rw [ahead_expected_eq (by simp [isGap, hnewline, hcomment]) (by simpa using hinline)]

/-! ## Readers

No reader skips a tag that a header may follow, nor a header, except those it reads. -/

theorem ahead_rows (ts : List Token) : ahead .refused [] (rows ts).2 = ahead .refused [] ts := by
  fun_induction rows ts with
  | case1 => rfl
  | case2 t ts ht _ more rest h ih =>
    rw [h] at ih
    rw [ih, ahead_skipGaps, ahead_nil_cons (by simp [ht]) (by simp [opensDescription, ht, TokenKind.isBlock])]
  | case3 => rfl

theorem ahead_argument (source : List Char) (ts : List Token) :
    ahead .refused [] (argument source ts).rest = ahead .refused [] ts := by
  fun_cases argument source ts with
  | case1 => rfl
  | case2 t ts => exact ahead_rows (t :: ts)
  | case3 t ts _ ht =>
    rw [ahead_nil_cons (by simp [ht]) (by simp [opensDescription, ht, TokenKind.isBlock])]
  | case4 => rfl

section
variable {source : List Char} {opens : Token → LineState → Prop}

theorem not_opensDescription_of_isInline {t : Token} (h : t.kind.isInline) :
    t.kind ≠ .tag ∧ opensDescription t = false := by
  cases hkind : t.kind <;>
    simp [hkind, TokenKind.isInline, opensDescription, TokenKind.isBlock] at h ⊢

/-- The rest of a line of free text. -/
theorem ahead_skipLine {ts : List Token} (h : Laid opens .words ts) :
    ahead .refused [] (skipLine ts) = ahead .refused [] ts := by
  rcases h.exists_words with ⟨words, hts, hwords⟩
  rw [← ahead_nil_append (skipLine ts) fun w hw => not_opensDescription_of_isInline (hwords w hw), ← hts]

theorem ahead_expected_skipLine {ts : List Token} (h : Laid opens .words ts) :
    ahead .expected [] (skipLine ts) = ahead .expected [] ts := by
  cases ts with
  | nil => rfl
  | cons t ts =>
    by_cases hinline : t.kind.isInline
    · rw [ahead_expected_inline hinline]
      unfold skipLine
      rw [List.dropWhile_cons_of_pos]
      cases hkind : t.kind <;> simp [hkind, TokenKind.isInline] at hinline ⊢
    · rcases h with ⟨s', hallows, -⟩
      cases hallows with
      | lineEnd hk =>
        unfold skipLine
        rw [List.dropWhile_cons_of_neg (by simp [hk])]
      | word hk => exact absurd hk hinline

theorem ahead_skipHeader {ts : List Token} (h : Laid opens .words ts) :
    ahead .refused [] (skipHeader source ts) = ahead .expected [] ts := by
  unfold skipHeader skipDescription
  rw [ahead_descriptionLines, ahead_expected_skipLine h]

theorem ahead_step {k : StepKeyword} {t : Token} {ts : List Token} (h : LaidOut opens (t :: ts))
    (ht : t.kind = .step k) :
    ahead .refused [] (step source k t ts).rest = ahead .refused [] (t :: ts) := by
  have hwords : Laid opens .words ts := h.words_of_keyword (by rw [ht]; rfl)
  show ahead .refused [] (argument source (skipGaps (skipLine ts))).rest = _
  rw [ahead_argument, ahead_skipGaps, ahead_skipLine hwords,
    ahead_nil_cons (by simp [ht]) (by simp [opensDescription, ht, TokenKind.isBlock])]

theorem ahead_steps {ts : List Token} (h : LaidOut opens ts) :
    ahead .refused [] (steps source ts).rest = ahead .refused [] ts := by
  fun_induction steps source ts with
  | case1 ts hgaps => rw [← ahead_skipGaps [] ts, hgaps]
  | case2 ts t more hgaps k hk first _ others ih =>
    have hmore : t :: more <:+ ts := hgaps ▸ skipGaps_suffix ts
    have hrest : first.rest <:+ ts := suffix_of_skipGaps hgaps (step_suffix source k t more)
    show ahead .refused [] others.rest = _
    rw [ih (h.of_suffix hrest), ahead_step (h.of_suffix hmore) hk, ← hgaps, ahead_skipGaps]
  | case3 ts t more hgaps _ fault hfault =>
    rw [← ahead_skipGaps [] ts, hgaps]
    show ahead .refused [] (synchronize more) = _
    rw [ahead_synchronize]
    cases hkind : t.kind <;> simp [hkind, nonStepFault?] at hfault <;>
      rw [ahead_nil_cons (by simp [hkind]) (by simp [opensDescription, hkind, TokenKind.isBlock])]
  | case4 ts t more hgaps => rw [← ahead_skipGaps [] ts, hgaps]

theorem ahead_examples {tags : List String} {t : Token} {ts : List Token} (h : Laid opens .words ts) :
    ahead .refused [] (examples source tags t ts).rest = ahead .expected [] ts := by
  have hgaps : ahead .refused [] (skipGaps (skipHeader source ts)) = ahead .expected [] ts := by
    rw [ahead_skipGaps, ahead_skipHeader h]
  unfold examples
  dsimp only
  split
  · rename_i a more hrest
    rw [hrest] at hgaps
    split
    · exact (ahead_rows (a :: more)).trans hgaps
    · exact hgaps
  · rename_i hrest
    rwa [hrest] at hgaps

theorem ahead_exampleBlocks {started : Bool} {ts : List Token} (h : LaidOut opens ts) :
    ahead .refused [] (exampleBlocks source started ts).rest = ahead .refused [] ts := by
  fun_induction exampleBlocks source started ts with
  | case1 => rfl
  | case2 started ts t more hskip _ hk first _ others ih =>
    have hmore : t :: more <:+ ts := hskip ▸ skipTags_suffix ts
    have hrest : first.rest <:+ ts := suffix_of_skipTags hskip (examples_suffix source _ t more)
    have hwords : Laid opens .words more :=
      (h.of_suffix hmore).words_of_keyword (by rw [hk]; rfl)
    show ahead .refused [] others.rest = _
    rw [ih (h.of_suffix hrest), ahead_examples hwords, ← ahead_skipTags [] ts, hskip,
      ahead_otherHeader (Or.inr hk)]
  | case3 ts t more hskip _ k hk _ others ih =>
    have hmore : t :: more <:+ ts := hskip ▸ skipTags_suffix ts
    have hrest : synchronize more <:+ ts := suffix_of_skipTags hskip (synchronize_suffix more)
    show ahead .refused [] others.rest = _
    rw [ih (h.of_suffix hrest), ahead_synchronize, ← ahead_skipTags [] ts, hskip,
      ahead_other (by simp [isGap, hk]) (by simp [hk]) (by simp [opensDescription, hk, TokenKind.isBlock])]
  | case4 => rfl
  | case5 => rfl

theorem ahead_child {tags : List String} {t : Token} {ts : List Token} (h : Laid opens .words ts) :
    ahead .refused [] (child source tags t ts).rest = ahead .expected [] ts := by
  have hbody : LaidOut opens (skipHeader source ts) :=
    LaidOut.of_suffix ⟨_, h⟩ (skipHeader_suffix source ts)
  have hrest : ahead .refused [] (exampleBlocks source false
      (steps source (skipHeader source ts)).rest).rest = ahead .expected [] ts := by
    rw [ahead_exampleBlocks (hbody.of_suffix (steps_suffix source _)), ahead_steps hbody,
      ahead_skipHeader h]
  unfold child
  dsimp only
  split <;> exact hrest

theorem ahead_background {t : Token} {ts : List Token} (h : Laid opens .words ts) :
    ahead .refused [] (background source t ts).rest = ahead .expected [] ts := by
  have hbody : LaidOut opens (skipHeader source ts) :=
    LaidOut.of_suffix ⟨_, h⟩ (skipHeader_suffix source ts)
  show ahead .refused [] (steps source (skipHeader source ts)).rest = _
  rw [ahead_steps hbody, ahead_skipHeader h]

end

end Reader

/-! ## The children of a feature -/

/-- The child of a header and the tags right before it; its name is the trimmed rest of the header's line. -/
structure Child.StandsFor (source : String) (c : Child) (header : List Token × Token) : Prop where
  location : c.location = header.2.location
  tags : c.tags = (header.1.map Token.text).eraseDups
  name : ∃ before rest, source.toList = before ++ rest ∧ Text.byteLength before = header.2.stop ∧
    c.name = String.ofList (Text.trim (rest.takeWhile (· ≠ '\n')))

namespace Reader

theorem standsFor_child {source : String} {tags : List Token} {t : Token} (ts : List Token)
    (h : t ∈ tokens .english source) :
    (child source.toList (tags.map Token.text).eraseDups t ts).value.StandsFor source (tags, t) := by
  have hname := titleOf_eq h
  unfold child
  dsimp only
  split
  · exact ⟨rfl, rfl, hname⟩
  · exact ⟨rfl, rfl, hname⟩

/-- The step of the body at a header: its child comes before those of the headers after it. -/
theorem forall₂_of_child {source : String} {opens : Token → LineState → Prop} {ts more : List Token}
    {t : Token} {cs : List Child} (h : LaidOut opens ts) (hmem : ∀ t ∈ ts, t ∈ tokens .english source)
    (hskip : skipTags ts = t :: more) (ht : isChildHeader t = true)
    (hcs : List.Forall₂ (Child.StandsFor source) cs
      (ahead .refused [] (child source.toList (tagRun ts).tags t more).rest)) :
    List.Forall₂ (Child.StandsFor source)
      ((child source.toList (tagRun ts).tags t more).value :: cs) (ahead .refused [] ts) := by
  have hmore : t :: more <:+ ts := hskip ▸ skipTags_suffix ts
  have hwords : Laid opens .words more := by
    apply (h.of_suffix hmore).words_of_keyword
    rcases kind_of_isChildHeader ht with hk | hk <;> rw [hk] <;> rfl
  rw [ahead_child hwords] at hcs
  rw [← ahead_skipTags [] ts, hskip, ahead_childHeader ht]
  exact .cons (standsFor_child more (hmem t (hmore.subset List.mem_cons_self))) hcs

theorem forall₂_body {source : String} {opens : Token → LineState → Prop} {f : Feature}
    {ts : List Token} (h : LaidOut opens ts) (hmem : ∀ t ∈ ts, t ∈ tokens .english source) :
    ∃ cs, (body source.toList f ts).1.children = f.children ++ cs ∧
      List.Forall₂ (Child.StandsFor source) cs (ahead .refused [] ts) := by
  fun_induction body source.toList f ts with
  | case1 f ts run hskip =>
    refine ⟨[], by simp, ?_⟩
    rw [← ahead_skipTags [] ts, hskip]
    exact .nil
  | case2 f ts run t more hskip _ _ hk read _ tagged misplaced f' g errors hbody ih =>
    have hmore : t :: more <:+ ts := hskip ▸ skipTags_suffix ts
    have hrest : read.rest <:+ ts := suffix_of_skipTags hskip (background_suffix source.toList t more)
    have hwords : Laid opens .words more := (h.of_suffix hmore).words_of_keyword (by rw [hk]; rfl)
    rcases ih (h.of_suffix hrest) fun u hu => hmem u (hrest.subset hu) with ⟨cs, hchildren, hcs⟩
    have hf' : f'.children = f.children := by
      by_cases hmisplaced : misplaced.isEmpty <;> simp [f', hmisplaced]
    rw [hbody, hf'] at hchildren
    refine ⟨cs, hchildren, ?_⟩
    rwa [← ahead_skipTags [] ts, hskip, ahead_otherHeader (Or.inl hk), ← ahead_background hwords]
  | case3 f ts run t more hskip _ _ hk read _ g errors hbody ih
  | case4 f ts run t more hskip _ _ hk read _ g errors hbody ih =>
    have hrest : read.rest <:+ ts := suffix_of_skipTags hskip (child_suffix source.toList run.tags t more)
    rcases ih (h.of_suffix hrest) fun u hu => hmem u (hrest.subset hu) with ⟨cs, hchildren, hcs⟩
    rw [hbody] at hchildren
    refine ⟨read.value :: cs, by simpa using hchildren, ?_⟩
    exact forall₂_of_child h hmem hskip (by simp [isChildHeader, hk]) hcs
  | case5 f ts t more hskip _ _ hk read _ g errors hbody ih =>
    have hmore : t :: more <:+ ts := hskip ▸ skipTags_suffix ts
    have hrest : read.rest <:+ ts := suffix_of_skipTags hskip (examples_suffix source.toList [] t more)
    have hwords : Laid opens .words more := (h.of_suffix hmore).words_of_keyword (by rw [hk]; rfl)
    rcases ih (h.of_suffix hrest) fun u hu => hmem u (hrest.subset hu) with ⟨cs, hchildren, hcs⟩
    rw [hbody] at hchildren
    refine ⟨cs, hchildren, ?_⟩
    rwa [← ahead_skipTags [] ts, hskip, ahead_otherHeader (Or.inr hk), ← ahead_examples hwords]
  | case6 f ts run t more hskip _ _ g errors hbody hbackground hscenario houtline hexamples fault ih =>
    have hrest : synchronize more <:+ ts := suffix_of_skipTags hskip (synchronize_suffix more)
    rcases ih (h.of_suffix hrest) fun u hu => hmem u (hrest.subset hu) with ⟨cs, hchildren, hcs⟩
    rw [hbody] at hchildren
    refine ⟨cs, hchildren, ?_⟩
    -- The token is none that the skipping of tags goes over, and no header that a reader knows.
    have hrun : inTagRun t = false := by
      have hhead := List.head?_dropWhile_not inTagRun ts
      unfold skipTags at hskip
      rw [hskip] at hhead
      simpa using hhead
    simp only [inTagRun, Bool.or_eq_false_iff, decide_eq_false_iff_not] at hrun
    have hopens : opensDescription t = false := by
      unfold opensDescription
      cases hkind : t.kind with
      | block b => cases b <;> simp_all [TokenKind.isBlock]
      | _ => rfl
    rwa [← ahead_skipTags [] ts, hskip, ahead_other hrun.1 hrun.2 hopens, ← ahead_synchronize]

theorem taggedHeaders_append_eof {finish : Token} (h : finish.kind = .eof) (run ts : List Token) :
    taggedHeaders run (ts ++ [finish]) = taggedHeaders run ts := by
  induction ts generalizing run with
  | nil => simp [taggedHeaders, isGap, isChildHeader, h]
  | cons t ts ih => simp [taggedHeaders, ih]

/-- The end of the source opens nothing. -/
theorem ahead_append_eof {finish : Token} (h : finish.kind = .eof) (prose : Prose) (run ts : List Token) :
    ahead prose run (ts ++ [finish]) = ahead prose run ts := by
  unfold ahead
  induction ts generalizing prose run with
  | nil =>
    cases prose <;> simp [outsideDescriptions, taggedHeaders, h, TokenKind.isInline, isGap,
      opensDescription, TokenKind.isBlock, isChildHeader]
  | cons t ts ih =>
    cases prose with
    | refused =>
      by_cases hopens : opensDescription t = true <;>
        simp [outsideDescriptions, taggedHeaders, hopens, ih]
    | expected =>
      by_cases hinline : t.kind.isInline
      · simp [outsideDescriptions, hinline, ih]
      · by_cases hopens : (isGap t || opensDescription t) = true <;>
          simp [outsideDescriptions, taggedHeaders, hinline, hopens, ih]
    | inside =>
      by_cases hnewline : t.kind = .newline <;>
        simp [outsideDescriptions, taggedHeaders, hnewline, ih]

theorem taggedHeaders_inline {t : Token} (h : t.kind.isInline) (ts : List Token) :
    taggedHeaders [] (t :: ts) = taggedHeaders [] ts := by
  rw [taggedHeaders]
  cases hkind : t.kind <;> simp [hkind, TokenKind.isInline] at h <;>
    simp [isGap, isChildHeader, hkind]

theorem map_snd_taggedHeaders (run ts : List Token) :
    (taggedHeaders run ts).map Prod.snd = ts.filter isChildHeader := by
  induction ts generalizing run with
  | nil => rfl
  | cons t ts ih =>
    unfold taggedHeaders
    by_cases hgap : isGap t = true
    · have hheader : isChildHeader t = false := by
        rcases kind_of_isGap hgap with hkind | hkind <;> simp [isChildHeader, hkind]
      simp [hgap, hheader, ih]
    · by_cases htag : t.kind = .tag
      · have hheader : isChildHeader t = false := by simp [isChildHeader, htag]
        simp [hgap, htag, hheader, ih]
      · by_cases hheader : isChildHeader t = true <;> simp [hgap, htag, hheader, ih]

theorem not_isChildHeader_of_isInline {t : Token} (h : t.kind.isInline) : isChildHeader t = false := by
  cases hkind : t.kind <;> simp [hkind, TokenKind.isInline, isChildHeader] at h ⊢

theorem not_isChildHeader_of_allows {opens : Token → LineState → Prop} {s s' : LineState} {t : Token}
    (h : s.Allows opens t s') (hs : s ≠ .start) : isChildHeader t = false := by
  cases h with
  | keyword | whole | tag | opening => exact absurd rfl hs
  | lineEnd hk | moreTags hk | taggedComment hk => simp [isChildHeader, hk]
  | word hk | taggedWord hk => exact not_isChildHeader_of_isInline hk

theorem ne_start_of_allows {d : Dialect} {source : List Char} {nameless : Prop} {s s' : LineState}
    {t : Token} (h : s.Allows (Scan.opensAs d source nameless) t s') (ht : t.kind ≠ .newline) :
    s' ≠ .start := by
  rintro rfl
  cases h with
  | lineEnd hk => exact ht hk
  | opening _ hs => simp [Scan.opensAs] at hs

/-- A keyword is the first token of its line, so no header is on a line that starts with free text. -/
theorem filter_outsideDescriptions {d : Dialect} {source : List Char} {nameless : Prop} {prose : Prose}
    {s : LineState} {ts : List Token} (h : Laid (Scan.opensAs d source nameless) s ts)
    (hprose : prose = .inside → s ≠ .start) :
    (outsideDescriptions prose ts).filter isChildHeader = ts.filter isChildHeader := by
  induction ts generalizing prose s with
  | nil => cases prose <;> rfl
  | cons t ts ih =>
    rcases h with ⟨s', hallows, hmore⟩
    have hrefused : (outsideDescriptions .refused ts).filter isChildHeader = ts.filter isChildHeader :=
      ih hmore (by simp)
    have hexpected : (outsideDescriptions .expected ts).filter isChildHeader =
        ts.filter isChildHeader := ih hmore (by simp)
    -- Only `inside` a description could a header be dropped, and there the line has already started.
    cases prose with
    | refused =>
      unfold outsideDescriptions
      split <;> simp only [List.filter_cons, hrefused, hexpected]
    | expected =>
      unfold outsideDescriptions
      split
      · rename_i hinline
        have hnewline : t.kind ≠ .newline := by
          intro hk
          simp [hk, TokenKind.isInline] at hinline
        rw [ih hmore fun _ => ne_start_of_allows hallows hnewline,
          List.filter_cons_of_neg (by simp [not_isChildHeader_of_isInline hinline])]
      · split <;> simp only [List.filter_cons, hrefused, hexpected]
    | inside =>
      have hheader := not_isChildHeader_of_allows hallows (hprose rfl)
      unfold outsideDescriptions
      split
      · simp only [List.filter_cons, hexpected]
      · rename_i hnewline
        rw [ih hmore fun _ => ne_start_of_allows hallows hnewline,
          List.filter_cons_of_neg (by simp [hheader])]

/-- A header ends the run of tags, so what follows it is read on its own. -/
theorem taggedHeaders_congr {t : Token} (h : opensDescription t = true) (run : List Token)
    {as bs : List Token} (hrest : taggedHeaders [] as = taggedHeaders [] bs) :
    taggedHeaders run (t :: as) = taggedHeaders run (t :: bs) := by
  have hgap : isGap t = false := by
    by_contra hgap
    rw [not_opensDescription_of_isGap (by simpa using hgap)] at h
    simp at h
  have htag : t.kind ≠ .tag := by
    intro htag
    simp [opensDescription, TokenKind.isBlock, htag] at h
  unfold taggedHeaders
  simp [hgap, htag, hrest]

/-- Where every `@` has a name, a line that starts with free text holds nothing else, so no tag is lost. -/
theorem taggedHeaders_outsideDescriptions {d : Dialect} {source : List Char} {nameless : Prop}
    {s : LineState} {ts : List Token} (hnamed : ¬ nameless)
    (h : Laid (Scan.opensAs d source nameless) s ts) :
    (∀ run, taggedHeaders run (outsideDescriptions .refused ts) = taggedHeaders run ts) ∧
      (s ≠ .tagged → taggedHeaders [] (outsideDescriptions .expected ts) = taggedHeaders [] ts) ∧
      (s = .words → taggedHeaders [] (outsideDescriptions .inside ts) = taggedHeaders [] ts) := by
  induction ts generalizing s with
  | nil => exact ⟨fun _ => rfl, fun _ => rfl, fun _ => rfl⟩
  | cons t ts ih =>
    have hopened : opensDescription t = true → t.kind.isKeyword := by
      intro hopens
      unfold opensDescription at hopens
      rw [Bool.and_eq_true] at hopens
      simp [TokenKind.isKeyword, hopens.1]
    -- After a header no tag comes on its line, so the line after it is one where a description may start.
    have hexpected : opensDescription t = true →
        taggedHeaders [] (outsideDescriptions .expected ts) = taggedHeaders [] ts := by
      intro hopens
      have hwords := LaidOut.words_of_keyword ⟨s, h⟩ (hopened hopens)
      exact (ih hwords).2.1 (by simp)
    rcases h with ⟨s', hallows, hmore⟩
    rcases ih hmore with ⟨hrefused, hstart, hinside⟩
    refine ⟨fun run => ?_, fun hs => ?_, fun hs => ?_⟩
    · unfold outsideDescriptions
      by_cases hopens : opensDescription t = true
      · rw [if_pos hopens]
        exact taggedHeaders_congr hopens run (hexpected hopens)
      · rw [if_neg hopens]
        unfold taggedHeaders
        simp [hrefused]
    · unfold outsideDescriptions
      by_cases hinline : t.kind.isInline
      · rw [if_pos hinline, taggedHeaders_inline hinline]
        exact hinside (hallows.eq_words hnamed hs hinline)
      · rw [if_neg hinline]
        by_cases hopens : opensDescription t = true
        · rw [if_pos (by simp [hopens])]
          exact taggedHeaders_congr hopens [] (hexpected hopens)
        · by_cases hgap : isGap t = true
          · rw [if_pos (by simp [hgap])]
            have hs' : s' ≠ .tagged := by
              rcases kind_of_isGap hgap with hkind | hkind
              · simp [hallows.eq_start hkind]
              · simp [hallows.eq_ended hkind]
            unfold taggedHeaders
            simp [hgap, hstart hs']
          · rw [if_neg (by simp [hgap, hopens])]
            unfold taggedHeaders
            simp [hrefused]
    · subst hs
      unfold outsideDescriptions
      cases hallows with
      | lineEnd hk =>
        rw [if_pos hk]
        unfold taggedHeaders
        simp [isGap, hk, hstart]
      | word hk =>
        have hnewline : t.kind ≠ .newline := by
          intro hkind
          simp [hkind, TokenKind.isInline] at hk
        rw [if_neg hnewline, taggedHeaders_inline hk]
        exact hinside rfl

end Reader

/-- A source without a feature header is refused.  Any other gives the feature of its first header, with one
child for each header of a scenario or an outline after it, in order.  Only the tags of a child may depend on
the lines that are read as descriptions, and these hold a tag only where an `@` has no name. -/
theorem children_stand_for_headers (source : String) :
    ((∃ errors, parse source = .error errors) ↔
      ∀ t ∈ tokens .english source, t.kind ≠ .block .feature) ∧
    ∀ p, parse source = .ok p → ∃ before t after,
      tokens .english source = before ++ t :: after ∧ t.kind = .block .feature ∧
        (∀ x ∈ before, x.kind ≠ .block .feature) ∧ p.feature.location = t.location ∧
        List.Forall₂ (Child.StandsFor source) p.feature.children
          (Reader.taggedHeaders [] (Reader.outsideDescriptions .expected after)) ∧
        (Reader.taggedHeaders [] (Reader.outsideDescriptions .expected after)).map Prod.snd =
          after.filter Reader.isChildHeader ∧
        ((∀ e ∈ lexicalErrors .english source, e.fault ≠ .missingTagName) →
          Reader.taggedHeaders [] (Reader.outsideDescriptions .expected after) =
            Reader.taggedHeaders [] after) := by
  rcases Reader.laid_live source with ⟨finish, htokens, hfinish, hlaid⟩
  -- What comes before the last token is all that the readers are given.
  constructor
  · rw [parse_eq_error_iff, Reader.header?_eq_none_iff]
    generalize Reader.live (tokens .english source) = live at htokens
    rw [htokens]
    simp only [List.mem_append, List.mem_singleton]
    constructor
    · rintro hall t (ht | rfl)
      · exact hall t ht
      · simp [hfinish]
    · intro hall t ht
      exact hall t (Or.inl ht)
  · intro p hp
    rcases exists_of_parse_eq_ok hp with ⟨tags, t, more, hheader, hread⟩
    rcases Reader.eq_append_of_header? hheader with ⟨before, hlive, ht, hbefore⟩
    have hmem : ∀ x ∈ t :: more, x ∈ tokens .english source := by
      intro x hx
      apply Reader.mem_tokens_of_mem_live
      rw [hlive]
      exact List.mem_append_right _ hx
    have hsuffix : t :: more <:+ Reader.live (tokens .english source) := ⟨before, hlive.symm⟩
    have hwords := (LaidOut.of_suffix ⟨_, hlaid⟩ hsuffix).words_of_keyword (by rw [ht]; rfl)
    have hskip := Reader.skipHeader_suffix source.toList more
    refine ⟨before, t, more ++ [finish], ?_, ht, hbefore, ?_, ?_, ?_, ?_⟩
    · rw [htokens, hlive, List.append_assoc, List.cons_append]
    · rcases Reader.exists_body_eq source.toList _ (Reader.skipHeader source.toList more) with
        ⟨b, cs, hbody⟩
      rw [(Prod.mk.inj hread).1, hbody]
    · rcases Reader.forall₂_body (LaidOut.of_suffix ⟨_, hwords⟩ hskip) fun x hx =>
        hmem x (List.mem_cons_of_mem t (hskip.subset hx)) with ⟨cs, hchildren, hcs⟩
      show List.Forall₂ _ _ (Reader.ahead .expected [] (more ++ [finish]))
      rw [(Prod.mk.inj hread).1, hchildren, Reader.ahead_append_eof hfinish,
        ← Reader.ahead_skipHeader hwords]
      exact hcs
    · show (Reader.ahead .expected [] (more ++ [finish])).map Prod.snd = _
      -- The end of the source heads no child, so the headers are those before it.
      have hlast : Reader.isChildHeader finish = false := by simp [Reader.isChildHeader, hfinish]
      rw [Reader.ahead_append_eof hfinish, List.filter_append, List.filter_cons_of_neg (by simp [hlast]),
        List.filter_nil, List.append_nil]
      exact (Reader.map_snd_taggedHeaders [] _).trans
        (Reader.filter_outsideDescriptions hwords (by simp))
    · intro hnamed
      have hnameless : ¬ ∃ e ∈ lexicalErrors .english source, e.fault = .missingTagName := by
        rintro ⟨e, he, hfault⟩
        exact hnamed e he hfault
      show Reader.ahead .expected [] (more ++ [finish]) = _
      rw [Reader.ahead_append_eof hfinish, Reader.taggedHeaders_append_eof hfinish]
      exact (Reader.taggedHeaders_outsideDescriptions hnameless hwords).2.1 (by simp)

set_option maxRecDepth 8000 in
/-- A stray row loses neither the scenario after it nor the tags of the scenario. -/
theorem children_stand_for_headers_after_stray_row :
    ∃ p, parse "Feature: f\n| x |\n@a @b @a\nScenario: s\n" = .ok p ∧ p.errors ≠ [] ∧
      p.feature.children.map Child.tags = [["@a", "@b"]] ∧
      ∃ before t after, tokens .english "Feature: f\n| x |\n@a @b @a\nScenario: s\n" =
          before ++ t :: after ∧ t.kind = .block .feature ∧
        List.Forall₂ (Child.StandsFor "Feature: f\n| x |\n@a @b @a\nScenario: s\n") p.feature.children
          (Reader.taggedHeaders [] (Reader.outsideDescriptions .expected after)) ∧
        (Reader.taggedHeaders [] (Reader.outsideDescriptions .expected after)).map Prod.snd =
          after.filter Reader.isChildHeader := by
  have hparse : parse "Feature: f\n| x |\n@a @b @a\nScenario: s\n" = .ok
      ⟨⟨"f", none, [], none, [.scenario ⟨"s", none, ["@a", "@b"], [], ⟨4, 1, 26⟩⟩], ⟨1, 1, 0⟩⟩,
        [⟨.order (.unexpected .tableRow), ⟨2, 1, 11⟩⟩]⟩ := by
    rw [parse_eq]
    cbv
  rcases (children_stand_for_headers _).2 _ hparse with ⟨before, t, after, htokens, ht, -, -, hcs, hheaders, -⟩
  exact ⟨_, hparse, by simp, rfl, before, t, after, htokens, ht, hcs, hheaders⟩

set_option maxRecDepth 8000 in
/-- On the line of an `@` without a name, read as a description, the tag of the scenario is lost. -/
theorem not_forall₂_children_headers : ¬ ∀ (source : String) (p : Parsed) (before after : List Token)
    (t : Token), parse source = .ok p → tokens .english source = before ++ t :: after →
      t.kind = .block .feature → (∀ x ∈ before, x.kind ≠ .block .feature) →
      List.Forall₂ (Child.StandsFor source) p.feature.children (Reader.taggedHeaders [] after) := by
  intro hall
  have hparse : parse "Feature: f\n@\"x\"@b\nScenario: s\n" = .ok
      ⟨⟨"f", some "\"x\"@b", [], none, [.scenario ⟨"s", none, [], [], ⟨3, 1, 18⟩⟩], ⟨1, 1, 0⟩⟩,
        [⟨.lexical .missingTagName, ⟨2, 1, 11⟩⟩]⟩ := by
    rw [parse_eq]
    cbv
  have htokens : tokens .english "Feature: f\n@\"x\"@b\nScenario: s\n" =
      [] ++ ⟨.block .feature, "Feature", ⟨1, 1, 0⟩, 8, none⟩ ::
        [⟨.text, "f", ⟨1, 10, 9⟩, 10, none⟩, ⟨.newline, "\n", ⟨1, 11, 10⟩, 11, none⟩,
          ⟨.quotedString, "x", ⟨2, 2, 12⟩, 15, none⟩, ⟨.tag, "@b", ⟨2, 5, 15⟩, 17, none⟩,
          ⟨.newline, "\n", ⟨2, 7, 17⟩, 18, none⟩,
          ⟨.block .scenario, "Scenario", ⟨3, 1, 18⟩, 27, none⟩, ⟨.text, "s", ⟨3, 11, 28⟩, 29, none⟩,
          ⟨.newline, "\n", ⟨3, 12, 29⟩, 30, none⟩, ⟨.eof, "", ⟨4, 1, 30⟩, 30, none⟩] := by cbv
  have hchildren := hall _ _ _ _ _ hparse htokens rfl (by simp)
  rcases hchildren with _ | ⟨hchild, -⟩
  have htags := hchild.tags
  simp [Child.tags] at htags
  revert htags
  decide

end Gherkin
