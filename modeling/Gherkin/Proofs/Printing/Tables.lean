import Gherkin.Proofs.Printing.Lines
import Gherkin.Proofs.Printing.Rows

/-!
# Printed tables read back

A table of rows that were split into cells is printed as lines that split into the same cells, at any
level of indentation.  Only a row without any cell comes back as another row: what is printed between its
two pipes is read as one empty cell.
-/

namespace Gherkin

namespace Table

/-- The rows of a text that has a written row on each of its lines. -/
def readRows (text : String) : List (List String) :=
  (Text.lines text.toList).map fun l => splitCells (String.ofList l.body)

/-- The indentation of a row does not matter. -/
theorem splitCells_indented (n : Nat) (row : List Char) :
    splitCells (String.ofList (List.replicate n ' ' ++ row)) = splitCells (String.ofList row) := by
  unfold splitCells rowBody
  rw [String.toList_ofList, String.toList_ofList,
    Text.trim_append_left_of_forall Printed.isBlank_of_mem_replicate]

/-- A row without cells is written as two pipes with blanks between them. -/
theorem formatRow_nil (widths : List Nat) : formatRow widths [] = ['|', ' ', ' ', '|'] := by
  rw [formatRow, List.zipWith_nil_right]
  rfl

section
variable {widths : List Nat} {cells : List String} (hwidths : cells.length ≤ widths.length)
include hwidths

theorem onOneLine_formatRow :
    Printed.OnOneLine (formatRow widths (cells.map fun c => escapeCell c.toList)) := by
  by_cases hcells : cells = []
  · rw [hcells, List.map_nil, formatRow_nil]
    exact Printed.onOneLine_of_not_mem (by decide) (by decide)
  · obtain ⟨cs, hrow, hlf⟩ := exists_formatRow_eq hcells hwidths
    rw [hrow]
    refine ⟨hlf, ?_⟩
    rw [List.getLast?_append_of_ne_nil _ (List.cons_ne_nil '|' [])]
    decide

theorem splitCells_written (htrim : ∀ c ∈ cells, Text.trim c.toList = c.toList) :
    splitCells (String.ofList (formatRow widths (cells.map fun c => escapeCell c.toList))) =
      if cells = [] then [""] else cells := by
  by_cases hcells : cells = []
  · rw [if_pos hcells, hcells, List.map_nil, formatRow_nil]
    decide
  · rw [if_neg hcells, splitCells_formatRow hcells hwidths htrim]

end

/-- A table whose cells are trimmed is read back from its lines. -/
theorem readRows_print (t : Table) (htrim : ∀ cells ∈ t.rows, ∀ c ∈ cells, Text.trim c.toList = c.toList)
    (level : Nat) : readRows (Printed.text (Printed.shift level t.print)) =
      t.rows.map fun cells => if cells = [] then [""] else cells := by
  let escape : List String → List (List Char) := fun cells => cells.map fun c => escapeCell c.toList
  let widths : List Nat := columnWidths (t.rows.map escape)
  have hprint : Printed.shift level t.print =
      t.rows.map fun cells => (0 + level, formatRow widths (escape cells)) := by
    simp only [Printed.shift, print, writtenRows, List.map_map]
    rfl
  have hwidths : ∀ cells ∈ t.rows, cells.length ≤ widths.length := by
    intro cells hcells
    have hlength := length_le_columnWidths (List.mem_map_of_mem (f := escape) hcells)
    rwa [List.length_map] at hlength
  have hlines : ∀ l ∈ Printed.shift level t.print, Printed.OnOneLine l.2 := by
    intro l hl
    rw [hprint] at hl
    obtain ⟨cells, hcells, rfl⟩ := List.mem_map.1 hl
    exact onOneLine_formatRow (hwidths cells hcells)
  -- No row takes more than one line, so the printed text is cut into the rows again.
  rw [readRows, Printed.lines_text hlines, hprint, List.map_map, List.map_map]
  apply List.map_congr_left
  intro cells hcells
  have hne : formatRow widths (escape cells) ≠ [] := List.cons_ne_nil _ _
  rw [Function.comp, Function.comp, Printed.body_line hne, splitCells_indented]
  exact splitCells_written (hwidths cells hcells) (htrim cells hcells)

/-- Rows that were split into cells and printed as a table split into the same cells again, apart from
those without a cell, which come back with an empty one.  So the table is the same exactly when each of
its rows has a cell. -/
theorem readRows_print_splitCells (rows : List String) (loc : Location) (level : Nat) :
    let t : Table := ⟨rows.map splitCells, loc⟩
    readRows (Printed.text (Printed.shift level t.print)) =
        t.rows.map (fun cells => if cells = [] then [""] else cells) ∧
      (readRows (Printed.text (Printed.shift level t.print)) = t.rows ↔ [] ∉ t.rows) := by
  intro t
  have htrim : ∀ cells ∈ t.rows, ∀ c ∈ cells, Text.trim c.toList = c.toList := by
    intro cells hcells c hc
    obtain ⟨row, -, rfl⟩ := List.mem_map.1 hcells
    exact trim_of_mem_splitCells hc
  have hread := readRows_print t htrim level
  refine ⟨hread, ?_⟩
  rw [hread]
  constructor
  · intro hsame hnil
    have hmem : [] ∈ t.rows.map fun cells => if cells = [] then [""] else cells := by rwa [hsame]
    obtain ⟨cells, -, hcells⟩ := List.mem_map.1 hmem
    by_cases h : cells = []
    · rw [if_pos h] at hcells
      exact List.cons_ne_nil _ _ hcells
    · rw [if_neg h] at hcells
      exact h hcells
  · intro hnil
    conv_rhs => rw [← List.map_id t.rows]
    apply List.map_congr_left
    intro cells hcells
    exact if_neg fun h : cells = [] => hnil (h ▸ hcells)

/-- A row that holds nothing but its first pipe has no cell, and is printed with a second one. -/
theorem exists_readRows_print_ne : ∃ rows : List String, rows ≠ [] ∧
    (∀ row ∈ rows, row.toList.head? = some '|' ∧ '\n' ∉ row.toList) ∧
    readRows (Table.print ⟨rows.map splitCells, .start⟩).text ≠ rows.map splitCells := by
  refine ⟨["| a |", "|"], by simp, by decide, ?_⟩
  decide

end Table

end Gherkin
