import Mathlib.Data.List.TakeWhile
import Gherkin.Proofs.Document.Equations
import Gherkin.Proofs.Document.Relocation
import Gherkin.Proofs.Token.Moving

/-!
# Reading inside a larger source

The readers look at the kinds and the contents of tokens and, through their places, at the text of the
source.  Where two sources hold the same text at the tokens, what is read from the one is read from the
other, with the places of the other.
-/

namespace Gherkin

/-- A source whose tokens come back in another one at other places. -/
structure View where
  source : List Char
  target : List Char
  place : Location → Location
  /-- Where a token stops in the target, by the offset where it stops in the source. -/
  stop : Nat → Nat

namespace View

variable (v : View)

def token (t : Token) : Token := { t with location := v.place t.location, stop := v.stop t.stop }

def reading {α : Type} (f : α → α) (r : Reading α) : Reading α :=
  ⟨f r.value, r.errors.map (ParseError.relocate v.place), r.rest.map v.token⟩

/-- What the readers take from the source at a token, they take from the target as well. -/
structure Shows (t : Token) : Prop where
  title : t.kind.isKeyword → Reader.titleOf v.target (v.token t) = Reader.titleOf v.source t
  line : t.kind.isInline → Reader.textFrom v.target (v.token t).location.offset =
    Reader.textFrom v.source t.location.offset
  docString : t.kind = .docString → Reader.docString v.target (v.token t) = Reader.docString v.source t

end View

namespace Reader

variable {v : View} {ts : List Token} {t : Token}

/-! ## Skips -/

theorem skipGaps_map (v : View) (ts : List Token) :
    skipGaps (ts.map v.token) = (skipGaps ts).map v.token := List.dropWhile_map

theorem skipLine_map (v : View) (ts : List Token) :
    skipLine (ts.map v.token) = (skipLine ts).map v.token := List.dropWhile_map

theorem synchronize_map (v : View) (ts : List Token) :
    synchronize (ts.map v.token) = (synchronize ts).map v.token := List.dropWhile_map

theorem skipTags_map (v : View) (ts : List Token) :
    skipTags (ts.map v.token) = (skipTags ts).map v.token := List.dropWhile_map

theorem skipGaps_map_cons {more : List Token} (h : skipGaps ts = t :: more) (v : View) :
    skipGaps (ts.map v.token) = v.token t :: more.map v.token := by
  rw [skipGaps_map, h, List.map_cons]

theorem skipTags_map_cons {more : List Token} (h : skipTags ts = t :: more) (v : View) :
    skipTags (ts.map v.token) = v.token t :: more.map v.token := by
  rw [skipTags_map, h, List.map_cons]

/-- The tags are the same, wherever they stand. -/
theorem tagRun_map (v : View) (ts : List Token) :
    tagRun (ts.map v.token) = { tagRun ts with location := (tagRun ts).location.map v.place } := by
  have hfront : ((ts.map v.token).takeWhile inTagRun).filter (fun t => t.kind = .tag) =
      ((ts.takeWhile inTagRun).filter fun t => t.kind = .tag).map v.token := by
    rw [List.takeWhile_map, List.filter_map]
    rfl
  unfold tagRun
  rw [hfront]
  dsimp only
  rw [List.map_map, List.head?_map, Option.map_map, Option.map_map]
  rfl

theorem stray_map (v : View) (ts : List Token) :
    (tagRun (ts.map v.token)).stray = (tagRun ts).stray.map (ParseError.relocate v.place) := by
  rw [tagRun_map]
  unfold TagRun.stray
  cases (tagRun ts).location <;> rfl

/-! ## Descriptions -/

theorem descriptionLines_map (newlines : Nat) (h : ∀ t ∈ ts, v.Shows t) :
    descriptionLines v.target newlines (ts.map v.token) =
      ((descriptionLines v.source newlines ts).1,
        (descriptionLines v.source newlines ts).2.map v.token) := by
  fun_induction descriptionLines v.source newlines ts with
  | case1 => rw [List.map_nil, descriptionLines]
  | case2 newlines t ts ht ih =>
    rw [List.map_cons, descriptionLines_of_newline (t := v.token t) ht]
    exact ih fun u hu => h u (List.mem_cons_of_mem t hu)
  | case3 newlines t _ ht n ts hn ih =>
    rw [List.map_cons, List.map_cons,
      descriptionLines_of_comment_newline (t := v.token t) (n := v.token n) ht hn]
    exact ih fun u hu => h u (List.mem_cons_of_mem t (List.mem_cons_of_mem n hu))
  | case4 newlines t _ ht n ts hn ih =>
    rw [List.map_cons, descriptionLines_of_comment (t := v.token t) ht]
    · exact ih fun u hu => h u (List.mem_cons_of_mem t hu)
    · intro u hu
      rw [List.map_cons, List.head?_cons] at hu
      rw [← Option.some.inj hu]
      exact hn
  | case5 newlines t _ ht =>
    rw [List.map_singleton, descriptionLines_of_comment (t := v.token t) ht (by simp), descriptionLines]
    rfl
  | case6 newlines t ts _ _ hinline _ more rest hlines ih =>
    have hrest := ih fun u hu => h u (List.mem_cons_of_mem t ((skipLine_suffix ts).subset hu))
    rw [List.map_cons, descriptionLines_of_isInline (t := v.token t) hinline, skipLine_map, hrest, hlines,
      (h t List.mem_cons_self).line hinline]
  | case7 newlines t ts hnewline hcomment hinline =>
    have hgap : isGap t = false := by simp [isGap, hnewline, hcomment]
    exact descriptionLines_of_stop (t := v.token t) hgap (Bool.eq_false_iff.2 hinline)

theorem headerDescription_map (h : ∀ t ∈ ts, v.Shows t) :
    headerDescription v.target (ts.map v.token) = headerDescription v.source ts := by
  unfold headerDescription description
  rw [skipLine_map, descriptionLines_map 0 fun t ht => h t ((skipLine_suffix ts).subset ht)]

theorem skipHeader_map (h : ∀ t ∈ ts, v.Shows t) :
    skipHeader v.target (ts.map v.token) = (skipHeader v.source ts).map v.token := by
  unfold skipHeader skipDescription
  rw [skipLine_map, descriptionLines_map 0 fun t ht => h t ((skipLine_suffix ts).subset ht)]

theorem optionalTitleOf_token (ht : v.Shows t) (hk : t.kind.isKeyword) :
    optionalTitleOf v.target (v.token t) = optionalTitleOf v.source t := by
  unfold optionalTitleOf
  rw [ht.title hk]

/-! ## Tables and steps -/

theorem rows_map (v : View) (ts : List Token) :
    rows (ts.map v.token) = ((rows ts).1.map v.token, (rows ts).2.map v.token) := by
  fun_induction rows ts with
  | case1 => rw [List.map_nil, rows]
  | case2 t ts ht _ more rest hrows ih =>
    have hkind : (v.token t).kind = .tableRow := ht
    rw [List.map_cons, rows, if_pos hkind, skipGaps_map, ih, hrows]
    rfl
  | case3 t ts ht =>
    have hkind : (v.token t).kind ≠ .tableRow := ht
    rw [List.map_cons, rows, if_neg hkind]
    rfl

theorem raggedRows_map (v : View) (width : Nat) (ts : List Token) :
    raggedRows width (ts.map v.token) = (raggedRows width ts).map (ParseError.relocate v.place) := by
  unfold raggedRows
  rw [List.filterMap_map, List.map_filterMap]
  apply List.filterMap_congr
  intro t _
  have htext : (v.token t).text = t.text := rfl
  unfold raggedRow?
  dsimp only [Function.comp]
  rw [htext]
  split
  · rfl
  · rfl

theorem table_map (v : View) (t : Token) (ts : List Token) :
    table (v.token t) (ts.map v.token) = v.reading (Table.relocate v.place) (table t ts) := by
  unfold table
  rw [← List.map_cons, rows_map]
  dsimp only
  rw [raggedRows_map, List.map_map]
  rfl

theorem argument_map (h : ∀ t ∈ ts, v.Shows t) :
    argument v.target (ts.map v.token) =
      v.reading (Prod.map (Option.map (Table.relocate v.place)) id) (argument v.source ts) := by
  cases ts with
  | nil => rfl
  | cons t ts =>
    have hkind : (v.token t).kind = t.kind := rfl
    rw [List.map_cons, argument, argument, table_map, hkind]
    by_cases hrow : t.kind = .tableRow
    · rw [if_pos hrow, if_pos hrow]
      rfl
    · rw [if_neg hrow, if_neg hrow]
      by_cases hdoc : t.kind = .docString
      · rw [if_pos hdoc, if_pos hdoc, (h t List.mem_cons_self).docString hdoc]
        rfl
      · rw [if_neg hdoc, if_neg hdoc]
        rfl

theorem step_map {k : StepKeyword} (hk : t.kind = .step k) (ht : v.Shows t) (h : ∀ t ∈ ts, v.Shows t) :
    step v.target k (v.token t) (ts.map v.token) =
      v.reading (Step.relocate v.place) (step v.source k t ts) := by
  have hargument : ∀ u ∈ skipGaps (skipLine ts), v.Shows u := fun u hu =>
    h u (((skipGaps_suffix _).trans (skipLine_suffix ts)).subset hu)
  unfold step
  rw [skipLine_map, skipGaps_map, argument_map hargument, ht.title (by rw [hk]; rfl)]
  by_cases hblank : (titleOf v.source t).isEmpty
  · simp only [if_pos hblank]
    rfl
  · simp only [if_neg hblank]
    rfl

theorem steps_map (h : ∀ t ∈ ts, v.Shows t) :
    steps v.target (ts.map v.token) =
      v.reading (List.map (Step.relocate v.place)) (steps v.source ts) := by
  fun_induction steps v.source ts with
  | case1 ts hgaps =>
    rw [steps_of_skipGaps_eq_nil (by rw [skipGaps_map, hgaps]; rfl)]
    rfl
  | case2 ts t more hgaps k hk first _ others ih =>
    have hmore : t :: more <:+ ts := hgaps ▸ skipGaps_suffix ts
    have hrest : first.rest <:+ ts := suffix_of_skipGaps hgaps (step_suffix v.source k t more)
    have hskip := skipGaps_map_cons hgaps v
    have hfirst := step_map hk (h t (hmore.subset List.mem_cons_self)) fun u hu =>
      h u (hmore.subset (List.mem_cons_of_mem t hu))
    have hothers := ih fun u hu => h u (hrest.subset hu)
    rw [steps_of_step hskip hk, hfirst]
    dsimp only [View.reading]
    rw [hothers]
    simp only [View.reading, first, others, List.map_cons, List.map_append]
  | case3 ts t more hgaps _ fault hfault =>
    have hskip := skipGaps_map_cons hgaps v
    rw [steps_of_fault hskip hfault, synchronize_map]
    rfl
  | case4 ts t more hgaps hk hfault =>
    have hskip := skipGaps_map_cons hgaps v
    have hstep : t.kind.isStep = false := isStep_eq_false hk
    rw [steps_of_stop hskip hstep hfault]
    rfl

/-! ## Blocks -/

theorem examples_map (tags : List String) (hk : t.kind.isKeyword) (ht : v.Shows t)
    (h : ∀ t ∈ ts, v.Shows t) :
    examples v.target tags (v.token t) (ts.map v.token) =
      v.reading (Examples.relocate v.place) (examples v.source tags t ts) := by
  unfold examples
  rw [optionalTitleOf_token ht hk, headerDescription_map h, skipHeader_map h, skipGaps_map]
  cases hrest : skipGaps (skipHeader v.source ts) with
  | nil => rfl
  | cons a more =>
    have hkind : (v.token a).kind = a.kind := rfl
    rw [List.map_cons]
    dsimp only
    rw [table_map, hkind]
    by_cases hrow : a.kind = .tableRow
    · rw [if_pos hrow, if_pos hrow]
      rfl
    · rw [if_neg hrow, if_neg hrow]
      rfl

theorem exampleBlocks_map (started : Bool) (h : ∀ t ∈ ts, v.Shows t) :
    exampleBlocks v.target started (ts.map v.token) =
      v.reading (List.map (Examples.relocate v.place)) (exampleBlocks v.source started ts) := by
  fun_induction exampleBlocks v.source started ts with
  | case1 started ts hskip =>
    rw [exampleBlocks_of_skipTags_eq_nil (by rw [skipTags_map, hskip]; rfl)]
    rfl
  | case2 started ts t more hskip _ hk first _ others ih =>
    have hmore : t :: more <:+ ts := hskip ▸ skipTags_suffix ts
    have hrest : first.rest <:+ ts := suffix_of_skipTags hskip (examples_suffix v.source _ t more)
    have hskip' := skipTags_map_cons hskip v
    have hfirst := examples_map (tagRun ts).tags (by rw [hk]; rfl)
      (h t (hmore.subset List.mem_cons_self)) fun u hu =>
        h u (hmore.subset (List.mem_cons_of_mem t hu))
    have hothers := ih fun u hu => h u (hrest.subset hu)
    rw [exampleBlocks_of_examples hskip' hk, tagRun_map, hfirst]
    dsimp only [View.reading]
    rw [hothers]
    simp only [View.reading, first, others, List.map_cons, List.map_append]
  | case3 ts t more hskip _ k hk _ others ih =>
    have hrest : synchronize more <:+ ts := suffix_of_skipTags hskip (synchronize_suffix more)
    have hskip' := skipTags_map_cons hskip v
    have hothers := ih fun u hu => h u (hrest.subset hu)
    rw [exampleBlocks_of_step hskip' (by show t.kind.isStep = true; rw [hk]; rfl), synchronize_map]
    dsimp only
    rw [hothers]
    rfl
  | case4 started ts t more hskip _ k hk hstarted =>
    have hskip' := skipTags_map_cons hskip v
    obtain rfl : started = false := by simpa using hstarted
    rw [exampleBlocks_of_step_before hskip' (by show t.kind.isStep = true; rw [hk]; rfl)]
    rfl
  | case5 started ts t more hskip _ hexamples hstep =>
    have hskip' := skipTags_map_cons hskip v
    have hstep' : t.kind.isStep = false := isStep_eq_false hstep
    rw [exampleBlocks_of_stop hskip' hstep' hexamples]
    rfl

theorem child_map {tags : List String} (hk : t.kind.isKeyword) (ht : v.Shows t)
    (h : ∀ t ∈ ts, v.Shows t) :
    child v.target tags (v.token t) (ts.map v.token) =
      v.reading (Child.relocate v.place) (child v.source tags t ts) := by
  have hskip : ∀ u ∈ skipHeader v.source ts, v.Shows u := fun u hu =>
    h u ((skipHeader_suffix v.source ts).subset hu)
  have hblocks := exampleBlocks_map false fun u hu =>
    hskip u ((steps_suffix v.source _).subset hu)
  unfold child
  rw [ht.title hk, headerDescription_map h, skipHeader_map h, steps_map hskip]
  dsimp only [View.reading] at hblocks ⊢
  rw [hblocks]
  dsimp only
  have hkind : (v.token t).kind = t.kind := rfl
  rw [List.isEmpty_map, hkind]
  by_cases houtline : (t.kind = .block .scenarioOutline ||
      !(exampleBlocks v.source false (steps v.source (skipHeader v.source ts)).rest).value.isEmpty) = true
  · simp only [if_pos houtline, List.map_append]
    rw [← checkOutline_relocate]
    rfl
  · simp only [if_neg houtline, List.map_append]
    rfl

theorem background_map (hk : t.kind.isKeyword) (ht : v.Shows t) (h : ∀ t ∈ ts, v.Shows t) :
    background v.target (v.token t) (ts.map v.token) =
      v.reading (Background.relocate v.place) (background v.source t ts) := by
  unfold background
  rw [optionalTitleOf_token ht hk, headerDescription_map h, skipHeader_map h,
    steps_map fun u hu => h u ((skipHeader_suffix v.source ts).subset hu)]
  rfl

end Reader

end Gherkin
