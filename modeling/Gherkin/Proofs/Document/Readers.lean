import Gherkin.Document.Parser

/-!
# Readers of lists of tokens

What a parser makes of the tokens in front of it depends on them only, not on its position.  So each of its
methods is here a reader that takes what it understands from the front of a list of tokens and leaves over
a suffix of it.  The end of the source is the end of the list.
-/

namespace Gherkin

structure Reading (α : Type) where
  value : α
  errors : List ParseError
  rest : List Token

namespace Reader

/-! ## Skipping -/

def skipGaps (ts : List Token) : List Token := ts.dropWhile isGap

def skipLine (ts : List Token) : List Token := ts.dropWhile fun t => t.kind ≠ .newline

def synchronize (ts : List Token) : List Token := ts.dropWhile fun t => !isAnchor t

theorem skipGaps_suffix (ts : List Token) : skipGaps ts <:+ ts := List.dropWhile_suffix _

theorem skipLine_suffix (ts : List Token) : skipLine ts <:+ ts := List.dropWhile_suffix _

theorem synchronize_suffix (ts : List Token) : synchronize ts <:+ ts := List.dropWhile_suffix _

/-! ## Tags -/

def inTagRun (t : Token) : Bool := isGap t || t.kind = .tag

def tagRun (ts : List Token) : TagRun :=
  let tags := (ts.takeWhile inTagRun).filter fun t => t.kind = .tag
  ⟨(tags.map Token.text).eraseDups, tags.head?.map Token.location⟩

def skipTags (ts : List Token) : List Token := ts.dropWhile inTagRun

theorem skipTags_suffix (ts : List Token) : skipTags ts <:+ ts := List.dropWhile_suffix _

/-! ## Descriptions -/

/-- The lines of free text at the front, each with the number of line ends just before it.  A comment
takes its own line end with it. -/
def descriptionLines (source : List Char) (newlines : Nat) :
    List Token → List (Nat × String) × List Token
  | [] => ([], [])
  | t :: ts =>
    if t.kind = .newline then descriptionLines source (newlines + 1) ts
    else if t.kind = .comment then
      match ts with
      | n :: ts' =>
        if n.kind = .newline then descriptionLines source newlines ts'
        else descriptionLines source newlines (n :: ts')
      | [] => ([], [])
    else if t.kind.isInline then
      have : (skipLine ts).length ≤ ts.length := (skipLine_suffix ts).length_le
      let (more, rest) := descriptionLines source 0 (skipLine ts)
      ((newlines, textFrom source t.location.offset) :: more, rest)
    else ([], t :: ts)
termination_by ts => ts.length

theorem descriptionLines_suffix (source : List Char) (newlines : Nat) (ts : List Token) :
    (descriptionLines source newlines ts).2 <:+ ts := by
  fun_induction descriptionLines source newlines ts with
  | case1 => exact List.suffix_refl _
  | case2 _ t ts _ ih => exact ih.trans (List.suffix_cons t ts)
  | case3 _ t _ _ n ts _ ih => exact (ih.trans (List.suffix_cons n ts)).trans (List.suffix_cons t _)
  | case4 _ t _ _ n ts _ ih => exact ih.trans (List.suffix_cons t _)
  | case5 => exact List.nil_suffix
  | case6 _ t ts _ _ _ _ more rest h ih =>
    rw [h] at ih
    exact (ih.trans (skipLine_suffix ts)).trans (List.suffix_cons t ts)
  | case7 => exact List.suffix_refl _

def joinDescription : List (Nat × String) → Option String
  | [] => none
  | (_, first) :: more =>
    some (String.intercalate "\n" (first :: more.flatMap fun (newlines, line) =>
      List.replicate (newlines - 1) "" ++ [line]))

def description (source : List Char) (ts : List Token) : Option String :=
  joinDescription (descriptionLines source 0 ts).1

def skipDescription (source : List Char) (ts : List Token) : List Token :=
  (descriptionLines source 0 ts).2

def skipHeader (source : List Char) (ts : List Token) : List Token :=
  skipDescription source (skipLine ts)

def headerDescription (source : List Char) (ts : List Token) : Option String :=
  description source (skipLine ts)

theorem skipHeader_suffix (source : List Char) (ts : List Token) : skipHeader source ts <:+ ts :=
  (descriptionLines_suffix source 0 _).trans (skipLine_suffix ts)

/-! ## Tables and doc strings -/

def rows : List Token → List Token × List Token
  | [] => ([], [])
  | t :: ts =>
    if t.kind = .tableRow then
      have : (skipGaps ts).length ≤ ts.length := (skipGaps_suffix ts).length_le
      let (more, rest) := rows (skipGaps ts)
      (t :: more, rest)
    else ([], t :: ts)
termination_by ts => ts.length

theorem rows_suffix (ts : List Token) : (rows ts).2 <:+ ts := by
  fun_induction rows ts with
  | case1 => exact List.suffix_refl _
  | case2 t ts _ _ more rest h ih =>
    rw [h] at ih
    exact (ih.trans (skipGaps_suffix ts)).trans (List.suffix_cons t ts)
  | case3 => exact List.suffix_refl _

def raggedRows (width : Nat) (ts : List Token) : List ParseError := ts.filterMap (raggedRow? width)

def table (t : Token) (ts : List Token) : Reading Table :=
  let (found, rest) := rows (t :: ts)
  { value := ⟨found.map fun row => Table.splitCells row.text, t.location⟩
    errors := raggedRows (Table.splitCells t.text).length found
    rest }

theorem table_suffix (t : Token) (ts : List Token) : (table t ts).rest <:+ t :: ts :=
  rows_suffix (t :: ts)

/-! ## Steps -/

def argument (source : List Char) : List Token → Reading (Option Table × Option DocString)
  | [] => ⟨(none, none), [], []⟩
  | t :: ts =>
    if t.kind = .tableRow then
      let read := table t ts
      ⟨(some read.value, none), read.errors, read.rest⟩
    else if t.kind = .docString then ⟨(none, some (docString source t)), [], ts⟩
    else ⟨(none, none), [], t :: ts⟩

theorem argument_suffix (source : List Char) (ts : List Token) :
    (argument source ts).rest <:+ ts := by
  fun_cases argument source ts with
  | case1 => exact List.suffix_refl _
  | case2 t ts => exact table_suffix t ts
  | case3 t ts => exact List.suffix_cons t ts
  | case4 t ts => exact List.suffix_refl _

def step (source : List Char) (k : StepKeyword) (t : Token) (ts : List Token) : Reading Step :=
  let text := titleOf source t
  let blank := if text.isEmpty then [order (.stepWithoutText k) t.location] else []
  let read := argument source (skipGaps (skipLine ts))
  ⟨⟨k, text, read.value.1, read.value.2, t.location⟩, blank ++ read.errors, read.rest⟩

theorem step_suffix (source : List Char) (k : StepKeyword) (t : Token) (ts : List Token) :
    (step source k t ts).rest <:+ ts :=
  (argument_suffix source _).trans ((skipGaps_suffix _).trans (skipLine_suffix ts))

def nonStepFault? : TokenKind → Option OrderFault
  | .tableRow => some .tableWithoutStep
  | .docString => some .docStringWithoutStep
  | .text | .quotedString | .placeholder => some .textAmongSteps
  | _ => none

def steps (source : List Char) (ts : List Token) : Reading (List Step) :=
  match h : skipGaps ts with
  | [] => ⟨[], [], []⟩
  | t :: more =>
    match t.kind with
    | .step k =>
      let first := step source k t more
      have : first.rest.length < ts.length := by
        have hfirst := (step_suffix source k t more).length_le
        have hts := (skipGaps_suffix ts).length_le
        rw [h, List.length_cons] at hts
        exact Nat.lt_of_le_of_lt hfirst hts
      let others := steps source first.rest
      ⟨first.value :: others.value, first.errors ++ others.errors, others.rest⟩
    | kind =>
      match nonStepFault? kind with
      | some fault => ⟨[], [order fault t.location], synchronize more⟩
      | none => ⟨[], [], t :: more⟩
termination_by ts.length

theorem steps_suffix (source : List Char) (ts : List Token) : (steps source ts).rest <:+ ts := by
  fun_induction steps source ts with
  | case1 ts h => exact List.nil_suffix
  | case2 ts t more h k hk first _ others ih =>
    have hts := skipGaps_suffix ts
    rw [h] at hts
    exact (ih.trans (step_suffix source k t more)).trans ((List.suffix_cons t more).trans hts)
  | case3 ts t more h _ fault hfault =>
    have hts := skipGaps_suffix ts
    rw [h] at hts
    exact (synchronize_suffix more).trans ((List.suffix_cons t more).trans hts)
  | case4 ts t more h _ hfault =>
    have hts := skipGaps_suffix ts
    rw [h] at hts
    exact hts

/-! ## Examples -/

def examples (source : List Char) (tags : List String) (t : Token) (ts : List Token) :
    Reading Examples :=
  let name := optionalTitleOf source t
  let description := headerDescription source ts
  match skipGaps (skipHeader source ts) with
  | a :: more =>
    if a.kind = .tableRow then
      let read := table a more
      ⟨⟨name, description, tags, some read.value, t.location⟩, read.errors, read.rest⟩
    else ⟨⟨name, description, tags, none, t.location⟩, [], a :: more⟩
  | [] => ⟨⟨name, description, tags, none, t.location⟩, [], []⟩

theorem examples_suffix (source : List Char) (tags : List String) (t : Token) (ts : List Token) :
    (examples source tags t ts).rest <:+ ts := by
  have hskip := (skipGaps_suffix (skipHeader source ts)).trans (skipHeader_suffix source ts)
  unfold examples
  dsimp only
  split
  · rename_i a more h
    rw [h] at hskip
    split
    · exact (table_suffix a more).trans hskip
    · exact hskip
  · exact List.nil_suffix

/-- The blocks of examples after the steps of a scenario.  Tags that no block follows are left over
for what does follow them. -/
def exampleBlocks (source : List Char) (started : Bool) (ts : List Token) :
    Reading (List Examples) :=
  match h : skipTags ts with
  | [] => ⟨[], [], ts⟩
  | t :: more =>
    have hts : more.length < ts.length := by
      have := (skipTags_suffix ts).length_le
      rwa [h, List.length_cons] at this
    match t.kind with
    | .block .examples =>
      let first := examples source (tagRun ts).tags t more
      have : first.rest.length < ts.length :=
        Nat.lt_of_le_of_lt (examples_suffix source (tagRun ts).tags t more).length_le hts
      let others := exampleBlocks source true first.rest
      ⟨first.value :: others.value, first.errors ++ others.errors, others.rest⟩
    | .step _ =>
      if started then
        have : (synchronize more).length < ts.length :=
          Nat.lt_of_le_of_lt (synchronize_suffix more).length_le hts
        let others := exampleBlocks source true (synchronize more)
        ⟨others.value, order .stepAfterExamples t.location :: others.errors, others.rest⟩
      else ⟨[], [], ts⟩
    | _ => ⟨[], [], ts⟩
termination_by ts.length

theorem exampleBlocks_suffix (source : List Char) (started : Bool) (ts : List Token) :
    (exampleBlocks source started ts).rest <:+ ts := by
  fun_induction exampleBlocks source started ts with
  | case1 => exact List.suffix_refl _
  | case2 _ ts t more h _ _ first _ others ih =>
    have hts := skipTags_suffix ts
    rw [h] at hts
    exact (ih.trans (examples_suffix source (tagRun ts).tags t more)).trans
      ((List.suffix_cons t more).trans hts)
  | case3 ts t more h _ _ _ _ others ih =>
    have hts := skipTags_suffix ts
    rw [h] at hts
    exact (ih.trans (synchronize_suffix more)).trans ((List.suffix_cons t more).trans hts)
  | case4 => exact List.suffix_refl _
  | case5 => exact List.suffix_refl _

/-! ## Scenarios and backgrounds -/

def child (source : List Char) (tags : List String) (t : Token) (ts : List Token) :
    Reading Child :=
  let name := titleOf source t
  let description := headerDescription source ts
  let body := steps source (skipHeader source ts)
  let blocks := exampleBlocks source false body.rest
  if t.kind = .block .scenarioOutline || !blocks.value.isEmpty then
    let o : Outline := ⟨name, description, tags, body.value, blocks.value, t.location⟩
    ⟨.outline o, body.errors ++ blocks.errors ++ checkOutline o, blocks.rest⟩
  else
    ⟨.scenario ⟨name, description, tags, body.value, t.location⟩, body.errors ++ blocks.errors,
      blocks.rest⟩

theorem child_suffix (source : List Char) (tags : List String) (t : Token) (ts : List Token) :
    (child source tags t ts).rest <:+ ts := by
  have hsteps := (steps_suffix source (skipHeader source ts)).trans (skipHeader_suffix source ts)
  have hblocks := (exampleBlocks_suffix source false _).trans hsteps
  unfold child
  dsimp only
  split <;> exact hblocks

def background (source : List Char) (t : Token) (ts : List Token) : Reading Background :=
  let body := steps source (skipHeader source ts)
  ⟨⟨optionalTitleOf source t, headerDescription source ts, body.value, t.location⟩, body.errors,
    body.rest⟩

theorem background_suffix (source : List Char) (t : Token) (ts : List Token) :
    (background source t ts).rest <:+ ts :=
  (steps_suffix source _).trans (skipHeader_suffix source ts)

/-! ## Features -/

def body (source : List Char) (f : Feature) (ts : List Token) : Feature × List ParseError :=
  let run := tagRun ts
  match h : skipTags ts with
  | [] => (f, run.stray)
  | t :: more =>
    have hts : more.length < ts.length := by
      have := (skipTags_suffix ts).length_le
      rwa [h, List.length_cons] at this
    have hsync : (synchronize more).length < ts.length :=
      Nat.lt_of_le_of_lt (synchronize_suffix more).length_le hts
    match t.kind with
    | .block .background =>
      let read := background source t more
      have : read.rest.length < ts.length :=
        Nat.lt_of_le_of_lt (background_suffix source t more).length_le hts
      let tagged := (run.location.map (order .tagsOnBackground)).toList
      let misplaced := ((backgroundFault? f).map (order · t.location)).toList
      let f := if misplaced.isEmpty then { f with background := some read.value } else f
      let (f, errors) := body source f read.rest
      (f, tagged ++ misplaced ++ read.errors ++ errors)
    | .block .scenario | .block .scenarioOutline =>
      let read := child source run.tags t more
      have : read.rest.length < ts.length :=
        Nat.lt_of_le_of_lt (child_suffix source run.tags t more).length_le hts
      let (f, errors) := body source { f with children := f.children ++ [read.value] } read.rest
      (f, read.errors ++ errors)
    | .block .examples =>
      let read := examples source [] t more
      have : read.rest.length < ts.length :=
        Nat.lt_of_le_of_lt (examples_suffix source [] t more).length_le hts
      let (f, errors) := body source f read.rest
      (f, order .examplesOutsideOutline t.location :: read.errors ++ errors)
    | kind =>
      let fault := strayFault kind
      let (f, errors) := body source f (synchronize more)
      (f, run.stray ++ order fault t.location :: errors)
termination_by ts.length

def header? (ts : List Token) : Option (List String × Token × List Token) :=
  match h : skipTags ts with
  | [] => none
  | t :: more =>
    have : more.length < ts.length := by
      have := (skipTags_suffix ts).length_le
      rwa [h, List.length_cons] at this
    if t.kind = .block .feature then some ((tagRun ts).tags, t, more) else header? more
termination_by ts.length

def headerFault (finish : Location) (ts : List Token) : List ParseError :=
  match skipTags ts with
  | [] => [order (.missingFeature none) finish]
  | t :: _ =>
    if t.kind = .block .feature then [] else [order (.missingFeature (some t.kind)) t.location]

/-- The tokens up to the first end of a source. -/
def live (ts : List Token) : List Token := ts.takeWhile fun t => t.kind ≠ .eof

/-- Where the tokens end: at the first end of a source, or else at the last token. -/
def finish (source : List Char) (ts : List Token) : Location :=
  match ts.find? fun t => t.kind = .eof with
  | some t => t.location
  | none =>
    match ts.getLast? with
    | some t => t.location
    | none => ⟨1, 1, Text.byteLength source⟩

end Reader

def Parsed.ofLive (source : String) (ts : List Token) : Except (List ParseError) Parsed :=
  let text := source.toList
  let live := Reader.live ts
  let faults := Reader.headerFault (Reader.finish text ts) live
  match Reader.header? live with
  | none => .error faults
  | some (tags, t, more) =>
    let opened : Feature :=
      { name := Reader.titleOf text t
        description := Reader.headerDescription text more
        tags
        background := none
        children := []
        location := t.location }
    let (feature, errors) := Reader.body text opened (Reader.skipHeader text more)
    .ok ⟨feature, faults ++ errors⟩

end Gherkin
