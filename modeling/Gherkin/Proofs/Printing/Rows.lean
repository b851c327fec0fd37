import Gherkin.Table
import Gherkin.Proofs.Text.Trimming

/-!
# Written rows read back

A written row splits into the cells it was written from, whatever pipes, backslashes and line feeds the cells
hold, as long as there is a cell and no cell starts or ends with a blank.
-/

namespace Gherkin.Table

theorem marks_cons_of_plain {c : Char} (hescape : c ≠ '\\') (hpipe : c ≠ '|') (cs : List Char) :
    marks (c :: cs) = some c :: marks cs := by
  rw [marks, if_neg hpipe]
  intro d ds hc
  exact absurd hc hescape

theorem marks_escapeCell_append (cell rest : List Char) :
    marks (escapeCell cell ++ rest) = cell.map some ++ marks rest := by
  induction cell with
  | nil => rfl
  | cons c cell ih =>
    have hcons : escapeCell (c :: cell) ++ rest =
        (if c = '\\' || c = '|' then ['\\', c] else if c = '\n' then ['\\', 'n'] else [c]) ++
          (escapeCell cell ++ rest) := by
      rw [escapeCell, List.flatMap_cons, List.append_assoc]
      rfl
    rw [hcons, List.map_cons, List.cons_append, ← ih]
    by_cases hescape : c = '\\'
    · rw [hescape]
      rfl
    by_cases hpipe : c = '|'
    · rw [hpipe]
      rfl
    by_cases hlf : c = '\n'
    · rw [hlf]
      rfl
    · rw [if_neg (by simp [hescape, hpipe]), if_neg hlf]
      exact marks_cons_of_plain hescape hpipe _

theorem marks_spaces_append (n : Nat) (rest : List Char) :
    marks (List.replicate n ' ' ++ rest) = List.replicate n (some ' ') ++ marks rest := by
  induction n with
  | zero => rfl
  | succ n ih =>
    rw [List.replicate_succ, List.cons_append, marks_cons_of_plain (by decide) (by decide), ih]
    rfl

/-- A written cell with the blanks and the pipe after it, the pipe before it left out. -/
def cellChars (cell : List Char) (padding : Nat) : List Char :=
  ' ' :: escapeCell cell ++ List.replicate padding ' ' ++ [' ', '|']

theorem marks_cellChars_append (cell rest : List Char) (padding : Nat) :
    marks (cellChars cell padding ++ rest) =
      (some ' ' :: cell.map some ++ List.replicate (padding + 1) (some ' ')) ++ none :: marks rest := by
  have hpipe : marks (' ' :: '|' :: rest) = some ' ' :: none :: marks rest := by
    rw [marks_cons_of_plain (by decide) (by decide)]
    rfl
  have hcell : cellChars cell padding ++ rest =
      ' ' :: (escapeCell cell ++ (List.replicate padding ' ' ++ ' ' :: '|' :: rest)) := by
    simp [cellChars]
  rw [hcell, marks_cons_of_plain (by decide) (by decide), marks_escapeCell_append, marks_spaces_append,
    hpipe, List.replicate_succ']
  simp

def rowChars (widths : List Nat) (cells : List (List Char)) : List Char :=
  (List.zip cells widths).flatMap fun (cell, width) =>
    cellChars cell (width - (escapeCell cell).length)

theorem formatRow_eq {widths : List Nat} {cells : List (List Char)} (hcells : cells ≠ [])
    (hwidths : cells.length ≤ widths.length) :
    formatRow widths (cells.map escapeCell) = '|' :: rowChars widths cells := by
  unfold formatRow rowChars
  rw [List.cons_append, List.cons_append, List.append_assoc]
  congr 1
  induction cells generalizing widths with
  | nil => exact absurd rfl hcells
  | cons cell cells ih =>
    cases widths with
    | nil => simp at hwidths
    | cons width widths =>
      by_cases hmore : cells = []
      · simp [hmore, pad, cellChars, List.intercalate]
      · have hlength : cells.length ≤ widths.length := by simpa using hwidths
        have hzip : List.zipWith pad widths (cells.map escapeCell) ≠ [] := by
          have hpos : 0 < cells.length := List.length_pos_iff.2 hmore
          intro hnil
          have := congrArg List.length hnil
          simp only [List.length_zipWith, List.length_map, List.length_nil] at this
          omega
        rw [List.map_cons, List.zipWith_cons_cons, List.intercalate_cons_of_ne_nil hzip,
          List.zip_cons_cons, List.flatMap_cons, ← ih hmore hlength]
        simp [cellChars, pad]

/-- The pieces that a written row is split into: one for each cell, and an empty one after the last pipe. -/
theorem splitOn_marks_rowChars {widths : List Nat} {cells : List (List Char)}
    (hwidths : cells.length ≤ widths.length) : ∃ paddings : List Nat, paddings.length = cells.length ∧
    (marks (rowChars widths cells)).splitOn none = (List.zipWith (fun cell padding =>
      some ' ' :: cell.map some ++ List.replicate padding (some ' ')) cells paddings) ++ [[]] := by
  induction cells generalizing widths with
  | nil => exact ⟨[], rfl, by simp [rowChars, marks]⟩
  | cons cell cells ih =>
    cases widths with
    | nil => simp at hwidths
    | cons width widths =>
      have hmore : cells.length ≤ widths.length := by simpa using hwidths
      rcases ih hmore with ⟨paddings, hlength, hsplit⟩
      refine ⟨(width - (escapeCell cell).length + 1) :: paddings, by simp [hlength], ?_⟩
      have hrow : rowChars (width :: widths) (cell :: cells) =
          cellChars cell (width - (escapeCell cell).length) ++ rowChars widths cells := by
        simp [rowChars]
      rw [hrow, marks_cellChars_append, List.splitOn_append_cons_self_of_not_mem (by simp), hsplit]
      rfl

theorem trim_piece (cell : List Char) (padding : Nat) (h : Text.trim cell = cell) :
    Text.trim ((some ' ' :: cell.map some ++ List.replicate padding (some ' ')).filterMap id) =
      cell := by
  have hpiece : (some ' ' :: cell.map some ++ List.replicate padding (some ' ')).filterMap id =
      [' '] ++ (cell ++ List.replicate padding ' ') := by
    simp [List.filterMap_append]
  rw [hpiece, Text.trim_append_left_of_forall (by simp; decide), Text.trim_append_of_forall, h]
  intro c hc
  rw [List.eq_of_mem_replicate hc]
  rfl

/-- The pieces of a written row, trimmed, are its cells. -/
theorem map_trim_pieces {cells : List (List Char)} (htrim : ∀ cell ∈ cells, Text.trim cell = cell)
    {paddings : List Nat} (hlength : paddings.length = cells.length) :
    (List.zipWith (fun cell padding =>
      some ' ' :: cell.map some ++ List.replicate padding (some ' ')) cells paddings).map
        (fun piece => Text.trim (piece.filterMap id)) = cells := by
  induction cells generalizing paddings with
  | nil => rfl
  | cons cell cells ih =>
    cases paddings with
    | nil => simp at hlength
    | cons padding paddings =>
      rw [List.zipWith_cons_cons, List.map_cons, trim_piece cell padding (htrim cell List.mem_cons_self),
        ih (fun c hc => htrim c (List.mem_cons_of_mem cell hc)) (by simpa using hlength)]

theorem exists_rowChars_eq_concat {widths : List Nat} {cells : List (List Char)} (hcells : cells ≠ [])
    (hwidths : cells.length ≤ widths.length) : ∃ cs, rowChars widths cells = cs ++ ['|'] := by
  induction cells generalizing widths with
  | nil => exact absurd rfl hcells
  | cons cell cells ih =>
    cases widths with
    | nil => simp at hwidths
    | cons width widths =>
      have hrow : rowChars (width :: widths) (cell :: cells) =
          cellChars cell (width - (escapeCell cell).length) ++ rowChars widths cells := by
        simp [rowChars]
      by_cases hmore : cells = []
      · refine ⟨' ' :: escapeCell cell ++
          List.replicate (width - (escapeCell cell).length) ' ' ++ [' '], ?_⟩
        rw [hrow, hmore]
        simp [rowChars, cellChars]
      · have hlength : cells.length ≤ widths.length := by simpa using hwidths
        rcases ih hmore hlength with ⟨cs, hcs⟩
        exact ⟨cellChars cell (width - (escapeCell cell).length) ++ cs,
          by rw [hrow, hcs, List.append_assoc]⟩

/-- What is written for a cell stands on one line. -/
theorem not_mem_cellChars (cell : List Char) (padding : Nat) : '\n' ∉ cellChars cell padding := by
  intro h
  have hcell : '\n' ∈ escapeCell cell := by simpa [cellChars] using h
  rcases List.mem_flatMap.1 hcell with ⟨c, -, hc⟩
  by_cases hescape : c = '\\' ∨ c = '|'
  · rcases hescape with rfl | rfl <;> revert hc <;> decide
  · rw [if_neg (by simpa using hescape)] at hc
    by_cases hlf : c = '\n'
    · rw [if_pos hlf] at hc
      revert hc
      decide
    · rw [if_neg hlf] at hc
      exact hlf (List.mem_singleton.1 hc).symm

/-- A written row stands on one line, between two pipes. -/
theorem exists_formatRow_eq {widths : List Nat} {cells : List String} (hcells : cells ≠ [])
    (hwidths : cells.length ≤ widths.length) :
    ∃ cs, formatRow widths (cells.map fun c => escapeCell c.toList) = '|' :: cs ++ ['|'] ∧
      '\n' ∉ '|' :: cs ++ ['|'] := by
  have hmap : (cells.map fun c => escapeCell c.toList) = (cells.map String.toList).map escapeCell := by
    rw [List.map_map]
    rfl
  have hne : cells.map String.toList ≠ [] := by simpa using hcells
  have hlength : (cells.map String.toList).length ≤ widths.length := by simpa using hwidths
  rcases exists_rowChars_eq_concat hne hlength with ⟨cs, hcs⟩
  refine ⟨cs, by rw [hmap, formatRow_eq hne hlength, hcs]; rfl, ?_⟩
  rw [List.cons_append, ← hcs]
  intro h
  rcases List.mem_cons.1 h with h | h
  · revert h
    decide
  · rcases List.mem_flatMap.1 h with ⟨x, -, hx⟩
    exact not_mem_cellChars _ _ hx

/-- A text that starts and ends with a pipe is trimmed. -/
theorem trim_pipes (cs : List Char) : Text.trim ('|' :: cs ++ ['|']) = '|' :: cs ++ ['|'] := by
  apply Text.trim_eq_self
  · intro c ds hc
    rw [List.cons_append] at hc
    rw [← (List.cons.inj hc).1]
    decide
  · intro c ds hc
    have hlast : '|' = c := List.singleton_inj.1 (List.append_inj' hc rfl).2
    rw [← hlast]
    decide

theorem splitCells_formatRow {widths : List Nat} {cells : List String} (hcells : cells ≠ [])
    (hwidths : cells.length ≤ widths.length) (htrim : ∀ c ∈ cells, Text.trim c.toList = c.toList) :
    splitCells (String.ofList (formatRow widths (cells.map fun c => escapeCell c.toList))) = cells := by
  have hmap : (cells.map fun c => escapeCell c.toList) = (cells.map String.toList).map escapeCell := by
    rw [List.map_map]
    rfl
  have hne : cells.map String.toList ≠ [] := by simpa using hcells
  have hlength : (cells.map String.toList).length ≤ widths.length := by simpa using hwidths
  have htrim' : ∀ cell ∈ cells.map String.toList, Text.trim cell = cell := by simpa using htrim
  rcases exists_rowChars_eq_concat hne hlength with ⟨cs, hcs⟩
  rcases splitOn_marks_rowChars hlength with ⟨paddings, hpaddings, hsplit⟩
  have hbody : rowBody ('|' :: rowChars widths (cells.map String.toList)) =
      rowChars widths (cells.map String.toList) := by
    unfold rowBody
    rw [hcs, ← List.cons_append, trim_pipes]
    rfl
  have hpieces : ((marks (rowBody ('|' :: rowChars widths (cells.map String.toList)))).splitOn none).map
      (fun piece => Text.trim (piece.filterMap id)) = cells.map String.toList ++ [[]] := by
    rw [hbody, hsplit, List.map_append, map_trim_pieces htrim' hpaddings]
    rfl
  unfold splitCells
  rw [hmap, formatRow_eq hne hlength, String.toList_ofList, hpieces]
  simp

/-- Cells that are read from a row are trimmed. -/
theorem trim_of_mem_splitCells {row cell : String} (h : cell ∈ splitCells row) :
    Text.trim cell.toList = cell.toList := by
  unfold splitCells at h
  dsimp only at h
  generalize hpieces : ((marks (rowBody row.toList)).splitOn none).map
    (fun piece => Text.trim (piece.filterMap id)) = pieces at h
  have htrim : ∀ cs ∈ pieces, Text.trim cs = cs := by
    intro cs hcs
    rw [← hpieces] at hcs
    rcases List.mem_map.1 hcs with ⟨piece, -, rfl⟩
    exact Text.trim_idem _
  rcases List.mem_map.1 h with ⟨cs, hcs, rfl⟩
  rw [String.toList_ofList]
  rcases List.mem_append.1 hcs with hcs | hcs
  · exact htrim cs (List.dropLast_subset pieces hcs)
  · split at hcs
    · simp at hcs
    · rename_i hne
      rw [List.mem_singleton.1 hcs]
      cases pieces with
      | nil => exact absurd rfl hne
      | cons p pieces =>
        apply htrim
        rw [List.getLastD_cons]
        exact List.getLastD_mem_cons

/-- The columns are no fewer than the cells of any row. -/
theorem length_le_columnWidths {rows : List (List (List Char))} {row : List (List Char)} (h : row ∈ rows) :
    row.length ≤ (columnWidths rows).length := by
  have hmax : ∀ (lengths : List Nat) (start n : Nat), n ∈ lengths ∨ n ≤ start →
      n ≤ lengths.foldl max start := by
    intro lengths
    induction lengths with
    | nil => simp
    | cons m lengths ih =>
      intro start n hn
      apply ih
      rcases hn with hn | hn
      · rcases List.mem_cons.1 hn with rfl | hn
        · exact Or.inr (le_max_right start n)
        · exact Or.inl hn
      · exact Or.inr (hn.trans (le_max_left start m))
  simp only [columnWidths, List.length_map, List.length_range]
  exact hmax _ 0 _ (Or.inl (List.mem_map_of_mem h))

end Gherkin.Table
