import Gherkin.Proofs.Document.Relocation
import Gherkin.Proofs.Document.Skipping
import Gherkin.Proofs.Printing.Printable

/-!
# Reading entries

A document is a sequence of entries: tags, headers with their descriptions, steps, rows and doc strings.  From
tokens that spell the entries of a tree, whatever line ends stand between them, the readers build the tree
again, its locations aside.  Here are the readers of tables, of arguments and of steps.
-/

namespace Gherkin

inductive Entry where
  | tag (text : String)
  | block (b : Block) (title : String) (description : Option String)
  | step (k : StepKeyword) (text : String)
  | row (cells : List String)
  | docString (d : DocString)

namespace Entry

def Heads (source : List Char) (t : Token) (more : List Token) : Entry → Prop
  | tag text => t.kind = .tag ∧ t.text = text
  | block b title description => t.kind = .block b ∧ Reader.titleOf source t = title ∧
      Reader.headerDescription source more = description
  | step k text => t.kind = .step k ∧ Reader.titleOf source t = text
  | row cells => t.kind = .tableRow ∧ Table.splitCells t.text = cells
  | docString d => t.kind = .docString ∧ Reader.docString source t = d

def leave (source : List Char) (more : List Token) : Entry → List Token
  | block .. => Reader.skipHeader source more
  | step .. => Reader.skipLine more
  | _ => more

end Entry

/-- The tokens read as the entries, whatever gaps stand before each. -/
def Spells (source : List Char) : List Entry → List Token → Prop
  | [], ts => Reader.skipGaps ts = []
  | e :: es, ts => ∃ t more, Reader.skipGaps ts = t :: more ∧ e.Heads source t more ∧
      Spells source es (e.leave source more)

/-! ## The entries of a tree -/

def Table.entries (t : Table) : List Entry := t.rows.map .row

def Step.entries (s : Step) : List Entry :=
  .step s.keyword s.text ::
    (s.table.toList.flatMap Table.entries ++ s.docString.toList.map .docString)

def Background.entries (b : Background) : List Entry :=
  .block .background (b.name.getD "") b.description :: b.steps.flatMap Step.entries

def Scenario.entries (s : Scenario) : List Entry :=
  s.tags.map .tag ++ .block .scenario s.name s.description :: s.steps.flatMap Step.entries

def Examples.entries (e : Examples) : List Entry :=
  e.tags.map .tag ++ .block .examples (e.name.getD "") e.description ::
    e.table.toList.flatMap Table.entries

def Outline.entries (o : Outline) : List Entry :=
  o.tags.map .tag ++ .block .scenarioOutline o.name o.description ::
    (o.steps.flatMap Step.entries ++ o.examples.flatMap Examples.entries)

def Child.entries : Child → List Entry
  | .scenario s => s.entries
  | .outline o => o.entries

def Feature.entries (f : Feature) : List Entry :=
  f.tags.map .tag ++ .block .feature f.name f.description ::
    (f.background.toList.flatMap Background.entries ++ f.children.flatMap Child.entries)

namespace Reader

variable {source : List Char}

/-! ## Gaps and tags -/

theorem skipGaps_idem (ts : List Token) : skipGaps (skipGaps ts) = skipGaps ts :=
  List.dropWhile_idempotent isGap ts

theorem skipGaps_of_skipGaps_eq {ts more : List Token} {t : Token} (h : skipGaps ts = t :: more) :
    isGap t = false := by
  unfold skipGaps at h
  have hhead := List.head?_dropWhile_not isGap ts
  rw [h] at hhead
  simpa using hhead

theorem spells_congr {es : List Entry} {ts us : List Token} (h : skipGaps ts = skipGaps us) :
    Spells source es ts ↔ Spells source es us := by
  cases es with
  | nil => unfold Spells; rw [h]
  | cons e es => unfold Spells; rw [h]

theorem spells_skipGaps {es : List Entry} {ts : List Token} :
    Spells source es (skipGaps ts) ↔ Spells source es ts :=
  spells_congr (skipGaps_idem ts)

-- The first token that is no gap is where the first entry starts.
theorem heads_of_spells {es : List Entry} {ts more : List Token} {t : Token} (h : Spells source es ts)
    (hts : skipGaps ts = t :: more) :
    ∃ e es', es = e :: es' ∧ e.Heads source t more ∧ Spells source es' (e.leave source more) := by
  cases es with
  | nil =>
    have hnil : skipGaps ts = [] := h
    rw [hts] at hnil
    simp at hnil
  | cons e es =>
    rcases h with ⟨u, rest, hu, hheads, hrest⟩
    rw [hts] at hu
    rcases List.cons.inj hu with ⟨rfl, rfl⟩
    exact ⟨e, es, rfl, hheads, hrest⟩

def OpensPart (es : List Entry) : Prop :=
  ∀ e ∈ es.head?, (∃ s, e = .tag s) ∨ (∃ b title d, e = .block b title d) ∨ ∃ k text, e = .step k text

theorem kind_ne_of_opensPart {es : List Entry} {ts more : List Token} {t : Token}
    (h : Spells source es ts) (hes : OpensPart es) (hts : skipGaps ts = t :: more) :
    t.kind ≠ .tableRow ∧ t.kind ≠ .docString := by
  rcases heads_of_spells h hts with ⟨e, es', rfl, hheads, -⟩
  rcases hes e rfl with ⟨s, rfl⟩ | ⟨b, title, d, rfl⟩ | ⟨k, text, rfl⟩
  · simp [show t.kind = .tag from hheads.1]
  · simp [show t.kind = .block b from hheads.1]
  · simp [show t.kind = .step k from hheads.1]

/-! ## Tables -/

theorem rows_of_spells {cells : List (List String)} {es : List Entry} {ts : List Token}
    (h : Spells source (cells.map .row ++ es) ts) (hes : OpensPart es) :
    (rows (skipGaps ts)).1.map (fun t => Table.splitCells t.text) = cells ∧
      Spells source es (rows (skipGaps ts)).2 := by
  induction cells generalizing ts with
  | nil =>
    have hts : Spells source es (skipGaps ts) := spells_skipGaps.2 h
    cases hskip : skipGaps ts with
    | nil =>
      rw [hskip] at hts
      rw [rows]
      exact ⟨rfl, hts⟩
    | cons t more =>
      rw [rows, if_neg (kind_ne_of_opensPart h hes hskip).1, ← hskip]
      exact ⟨rfl, hts⟩
  | cons row cells ih =>
    rcases h with ⟨t, more, hskip, ⟨hkind, hcells⟩, hmore⟩
    have hmore' : Spells source (cells.map .row ++ es) more := hmore
    rcases ih hmore' with ⟨hrows, hrest⟩
    rw [hskip, rows, if_pos hkind]
    exact ⟨by rw [List.map_cons, hrows, hcells], hrest⟩

theorem raggedRows_eq_nil {width : Nat} {ts : List Token}
    (h : ∀ row ∈ ts.map (fun t => Table.splitCells t.text), row.length = width) :
    raggedRows width ts = [] := by
  unfold raggedRows
  rw [List.filterMap_eq_nil_iff]
  intro t ht
  unfold raggedRow?
  rw [if_pos (h _ (List.mem_map_of_mem ht))]

theorem table_of_spells {data : Table} (hdata : data.Printable) {es : List Entry} {ts : List Token}
    (h : Spells source (data.entries ++ es) ts) (hes : OpensPart es) :
    ∃ t more, skipGaps ts = t :: more ∧ t.kind = .tableRow ∧
      (table t more).value.relocate .forget = data.relocate .forget ∧
      (table t more).errors = [] ∧ Spells source es (table t more).rest := by
  rcases rows_of_spells h hes with ⟨hcells, hrest⟩
  have hrows := hdata.rows
  unfold Table.entries at h
  cases hdatarows : data.rows with
  | nil => exact absurd hdatarows hrows
  | cons row cells =>
    rw [hdatarows] at h
    rcases h with ⟨t, more, hskip, ⟨hkind, hrow⟩, -⟩
    rw [hskip] at hcells hrest
    refine ⟨t, more, hskip, hkind, ?_, ?_, hrest⟩
    · show (⟨(rows (t :: more)).1.map _, Location.start⟩ : Table) = ⟨data.rows, .start⟩
      rw [hcells]
    · apply raggedRows_eq_nil
      rw [hcells, hrow]
      intro r hr
      rw [hdata.square r hr]
      unfold Table.width Table.headers
      rw [hdatarows]
      rfl

/-! ## Steps -/

theorem argument_of_spells {x : Step} (hx : x.Printable) {es : List Entry} {ts : List Token}
    (h : Spells source
      (x.table.toList.flatMap Table.entries ++ x.docString.toList.map .docString ++ es) ts)
    (hes : OpensPart es) :
    (argument source (skipGaps ts)).value.1.map (Table.relocate .forget) =
        x.table.map (Table.relocate .forget) ∧
      (argument source (skipGaps ts)).value.2 = x.docString ∧
      (argument source (skipGaps ts)).errors = [] ∧
      Spells source es (argument source (skipGaps ts)).rest := by
  cases htable : x.table with
  | some data =>
    -- A step has a table or a doc string, and the reader would take the table first.
    have hdoc : x.docString = none := by
      rcases hx.single with hnone | hnone
      · rw [htable] at hnone
        simp at hnone
      · exact hnone
    rw [htable, hdoc] at h
    have hspells : Spells source (data.entries ++ es) ts := by simpa using h
    rcases table_of_spells (hx.table data htable) hspells hes with
      ⟨t, more, hskip, hkind, hvalue, herrors, hrest⟩
    rw [hskip, argument, if_pos hkind, hdoc]
    exact ⟨congrArg some hvalue, rfl, herrors, hrest⟩
  | none =>
    rw [htable] at h
    cases hdoc : x.docString with
    | some d =>
      rw [hdoc] at h
      rcases h with ⟨t, more, hskip, ⟨hkind, hd⟩, hmore⟩
      rw [hskip, argument, if_neg (by rw [hkind]; simp), if_pos hkind]
      exact ⟨rfl, congrArg some hd, rfl, hmore⟩
    | none =>
      rw [hdoc] at h
      have hspells : Spells source es ts := h
      have hts : Spells source es (skipGaps ts) := spells_skipGaps.2 hspells
      -- Without either the next entry decides: it must not be read as one.
      cases hskip : skipGaps ts with
      | nil =>
        rw [hskip] at hts
        exact ⟨rfl, rfl, rfl, hts⟩
      | cons t more =>
        rcases kind_ne_of_opensPart hspells hes hskip with ⟨hrow, hdoc⟩
        rw [argument, if_neg hrow, if_neg hdoc, ← hskip]
        exact ⟨rfl, rfl, rfl, hts⟩

theorem step_of_spells {x : Step} (hx : x.Printable) {es : List Entry} {ts : List Token}
    (h : Spells source (x.entries ++ es) ts) (hes : OpensPart es) :
    ∃ t more, skipGaps ts = t :: more ∧ t.kind = .step x.keyword ∧
      (step source x.keyword t more).value.relocate .forget = x.relocate .forget ∧
      (step source x.keyword t more).errors = [] ∧
      Spells source es (step source x.keyword t more).rest := by
  rcases h with ⟨t, more, hskip, ⟨hkind, htitle⟩, hmore⟩
  rcases argument_of_spells hx hmore hes with ⟨htable, hdoc, herrors, hrest⟩
  refine ⟨t, more, hskip, hkind, ?_, ?_, hrest⟩
  · show (⟨x.keyword, titleOf source t, _, _, Location.start⟩ : Step) =
      ⟨x.keyword, x.text, _, x.docString, Location.start⟩
    rw [htitle]
    congr 1
  · have hnonempty : x.text.isEmpty = false := by simpa using hx.nonempty
    show (if (titleOf source t).isEmpty then _ else []) ++
      (argument source (skipGaps (skipLine more))).errors = []
    rw [htitle, hnonempty]
    exact herrors

def OpensBlock (es : List Entry) : Prop :=
  ∀ e ∈ es.head?, (∃ s, e = .tag s) ∨ ∃ b title d, e = .block b title d

theorem OpensBlock.opensPart {es : List Entry} (h : OpensBlock es) : OpensPart es := by
  intro e he
  rcases h e he with hs | hb
  · exact Or.inl hs
  · exact Or.inr (Or.inl hb)

theorem opensPart_steps {xs : List Step} {es : List Entry} (hes : OpensPart es) :
    OpensPart (xs.flatMap Step.entries ++ es) := by
  cases xs with
  | nil => exact hes
  | cons x xs =>
    intro e he
    have heq : e = .step x.keyword x.text := (Option.some.inj he).symm
    exact Or.inr (Or.inr ⟨_, _, heq⟩)

theorem kind_of_opensBlock {es : List Entry} {ts more : List Token} {t : Token}
    (h : Spells source es ts) (hes : OpensBlock es) (hts : skipGaps ts = t :: more) :
    t.kind = .tag ∨ ∃ b, t.kind = .block b := by
  rcases heads_of_spells h hts with ⟨e, es', rfl, hheads, -⟩
  rcases hes e rfl with ⟨s, rfl⟩ | ⟨b, title, d, rfl⟩
  · exact Or.inl hheads.1
  · exact Or.inr ⟨b, hheads.1⟩

theorem steps_of_spells {xs : List Step} (hxs : ∀ x ∈ xs, x.Printable) {es : List Entry}
    {ts : List Token} (h : Spells source (xs.flatMap Step.entries ++ es) ts) (hes : OpensBlock es) :
    (steps source ts).value.map (Step.relocate .forget) = xs.map (Step.relocate .forget) ∧
      (steps source ts).errors = [] ∧ Spells source es (steps source ts).rest := by
  induction xs generalizing ts with
  | nil =>
    have hts : Spells source es ts := h
    cases hskip : skipGaps ts with
    | nil =>
      rw [steps_of_skipGaps_eq_nil hskip]
      exact ⟨rfl, rfl, (spells_congr (by rw [hskip]; rfl)).1 hts⟩
    | cons t more =>
      have hgaps := spells_skipGaps.2 hts
      rw [hskip] at hgaps
      have hstop : steps source ts = ⟨[], [], t :: more⟩ := by
        rcases kind_of_opensBlock hts hes hskip with htag | ⟨b, hb⟩
        · exact steps_of_stop hskip (by rw [htag]; rfl) (by rw [htag]; rfl)
        · exact steps_of_stop hskip (by rw [hb]; rfl) (by rw [hb]; rfl)
      rw [hstop]
      exact ⟨rfl, rfl, hgaps⟩
  | cons x xs ih =>
    rw [List.flatMap_cons, List.append_assoc] at h
    rcases step_of_spells (hxs x List.mem_cons_self) h (opensPart_steps hes.opensPart) with
      ⟨t, more, hskip, hkind, hvalue, herrors, hrest⟩
    rcases ih (fun y hy => hxs y (List.mem_cons_of_mem x hy)) hrest with ⟨hvalues, herrors', hrest'⟩
    rw [steps_of_step hskip hkind]
    dsimp only
    rw [List.map_cons, List.map_cons, hvalue, hvalues, herrors, herrors']
    exact ⟨rfl, rfl, hrest'⟩

end Reader

end Gherkin
