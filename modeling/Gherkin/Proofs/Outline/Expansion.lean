import Mathlib
import Gherkin.Outline
import Gherkin.Proofs.Outline.Placeholders

/-!
# Filling in outlines

Each text of a step of a filled-in scenario is a text of the outline with the row's cells in the place
of the columns' names.  If the examples have a column for every placeholder, none is left.
-/

namespace Gherkin

theorem Step.texts_mapTexts (f : String → String) (s : Step) : (s.mapTexts f).texts = s.texts.map f := by
  unfold texts mapTexts
  cases s.table <;> cases s.docString <;> simp

namespace Placeholder

theorem mem_bindings {row : List (String × String)} {b : Binding} :
    b ∈ bindings row ↔ ∃ key value, (key, value) ∈ row ∧ b = (key.toList, value.toList) := by
  simp [bindings, eq_comm]

end Placeholder

namespace Table

theorem mem_of_mem_records {t : Table} {row : List (String × String)} (h : row ∈ t.records) :
    ∃ cells ∈ t.dataRows, row = t.headers.zip cells := by
  unfold records at h
  rcases List.mem_map.1 h with ⟨cells, hcells, rfl⟩
  exact ⟨cells, hcells, rfl⟩

/-- A row that is no shorter than the header binds every column. -/
theorem exists_mem_zip {headers cells : List String} (h : headers.length ≤ cells.length)
    {name : String} (hname : name ∈ headers) : ∃ value, (name, value) ∈ headers.zip cells := by
  rw [← List.map_fst_zip h] at hname
  rcases List.mem_map.1 hname with ⟨⟨key, value⟩, hmem, rfl⟩
  exact ⟨value, hmem⟩

end Table

namespace Outline

theorem mem_parameters {o : Outline} {name : String} :
    name ∈ o.parameters ↔ ∃ step ∈ o.steps, ∃ text ∈ step.texts,
      name.toList ∈ Placeholder.names text.toList := by
  unfold parameters
  rw [List.mem_eraseDups]
  simp only [List.mem_flatMap, List.mem_map]
  constructor
  · rintro ⟨text, ⟨step, hstep, htext⟩, cs, hcs, rfl⟩
    exact ⟨step, hstep, text, htext, by simpa using hcs⟩
  · rintro ⟨step, hstep, text, htext, hname⟩
    exact ⟨text, ⟨step, hstep, htext⟩, _, hname, by simp⟩

/-- Where nothing is missing, every placeholder is a column. -/
theorem mem_headers_of_missing_eq_nil {o : Outline} {e : Examples} {t : Table}
    (htable : e.table = some t) (h : o.missing e = []) {name : String} (hname : name ∈ o.parameters) :
    name ∈ t.headers := by
  have hcolumn := List.filter_eq_nil_iff.1 h name hname
  rw [htable] at hcolumn
  simpa [Table.hasColumn] using hcolumn

theorem mem_texts_instantiate {o : Outline} {e : Examples} {row : List (String × String)} {step : Step}
    (hstep : step ∈ (o.instantiate e row).steps) {text : String} (htext : text ∈ step.texts) :
    ∃ template ∈ o.steps, ∃ written ∈ template.texts, text = Placeholder.fill row written := by
  rcases List.mem_map.1 hstep with ⟨template, htemplate, rfl⟩
  rw [Step.texts_mapTexts] at htext
  rcases List.mem_map.1 htext with ⟨written, hwritten, rfl⟩
  exact ⟨template, htemplate, written, hwritten, rfl⟩

/-- A block of examples with a column for every placeholder leaves none in the steps of its scenarios. -/
theorem not_occurs_of_missing_eq_nil (o : Outline) (e : Examples) (t : Table)
    (htable : e.table = some t) (hmissing : o.missing e = [])
    (hheaders : ∀ header ∈ t.headers, '\n' ∉ header.toList)
    (hwidth : ∀ cells ∈ t.dataRows, t.width ≤ cells.length)
    (hcells : ∀ cells ∈ t.dataRows, ∀ cell ∈ cells, '<' ∉ cell.toList) :
    ∀ s ∈ o.expandBlock e, ∀ step ∈ s.steps, ∀ text ∈ step.texts, ∀ name,
      ¬ Placeholder.Occurs name text.toList := by
  intro s hs step hstep text htext name
  unfold expandBlock at hs
  rw [htable] at hs
  rcases List.mem_map.1 hs with ⟨row, hrow, rfl⟩
  rcases Table.mem_of_mem_records hrow with ⟨cells, hmem, rfl⟩
  rcases mem_texts_instantiate hstep htext with ⟨template, htemplate, written, hwritten, rfl⟩
  have hkey : ∀ b ∈ Placeholder.bindings (t.headers.zip cells), '\n' ∉ b.1 := by
    intro b hb
    rcases Placeholder.mem_bindings.1 hb with ⟨key, value, hzip, rfl⟩
    exact hheaders key (List.of_mem_zip hzip).1
  have hvalue : ∀ b ∈ Placeholder.bindings (t.headers.zip cells), '<' ∉ b.2 := by
    intro b hb
    rcases Placeholder.mem_bindings.1 hb with ⟨key, value, hzip, rfl⟩
    exact hcells cells hmem value (List.of_mem_zip hzip).2
  -- Every placeholder of the steps is a column, and the row has a cell for each.
  have hnames : ∀ name ∈ Placeholder.names written.toList,
      ∃ value, (name, value) ∈ Placeholder.bindings (t.headers.zip cells) := by
    intro name hname
    have hparameter : String.ofList name ∈ o.parameters :=
      mem_parameters.2 ⟨template, htemplate, written, hwritten, by simpa using hname⟩
    have hheader := mem_headers_of_missing_eq_nil htable hmissing hparameter
    rcases Table.exists_mem_zip (hwidth cells hmem) hheader with ⟨value, hzip⟩
    exact ⟨value.toList, Placeholder.mem_bindings.2 ⟨_, value, hzip, by simp⟩⟩
  unfold Placeholder.fill
  rw [String.toList_ofList]
  exact (Placeholder.free_substitute hkey hvalue hnames).not_occurs name

/-- Columns with brackets in their names: the longest that fits is filled in, and the bracket that no
column fits stays. -/
theorem not_occurs_of_missing_eq_nil_of_bracketed_columns : ∃ (o : Outline) (e : Examples) (t : Table),
    o.steps.map Step.text = ["<a>b> < <<a>"] ∧
      t.rows = [["a", "a>b", "<a", ""], ["1", "x>y", "2", "3"]] ∧ e.table = some t ∧ o.missing e = [] ∧
      (∀ header ∈ t.headers, '\n' ∉ header.toList) ∧
      (∀ cells ∈ t.dataRows, t.width ≤ cells.length) ∧
      (∀ cells ∈ t.dataRows, ∀ cell ∈ cells, '<' ∉ cell.toList) ∧
      (o.expandBlock e).map (fun s => s.steps.map Step.text) = [["x>y < 2"]] ∧
      ∀ s ∈ o.expandBlock e, ∀ step ∈ s.steps, ∀ text ∈ step.texts, ∀ name,
        ¬ Placeholder.Occurs name text.toList := by
  let t : Table := ⟨[["a", "a>b", "<a", ""], ["1", "x>y", "2", "3"]], .start⟩
  let e : Examples := ⟨none, none, [], some t, .start⟩
  let o : Outline := ⟨"", none, [], [⟨.given, "<a>b> < <<a>", none, none, .start⟩], [e], .start⟩
  have hmissing : o.missing e = [] := by cbv
  have hheaders : ∀ header ∈ t.headers, '\n' ∉ header.toList := by decide
  have hwidth : ∀ cells ∈ t.dataRows, t.width ≤ cells.length := by decide
  have hcells : ∀ cells ∈ t.dataRows, ∀ cell ∈ cells, '<' ∉ cell.toList := by decide
  have hsteps : (o.expandBlock e).map (fun s => s.steps.map Step.text) = [["x>y < 2"]] := by cbv
  exact ⟨o, e, t, rfl, rfl, rfl, hmissing, hheaders, hwidth, hcells, hsteps,
    not_occurs_of_missing_eq_nil o e t rfl hmissing hheaders hwidth hcells⟩

end Outline

end Gherkin
