import Gherkin.Location
import Gherkin.Text.Blank

/-!
# Tables

A table is a list of rows of cells, the first row naming the columns.  In a written row every cell
stands between two pipes; a pipe, a backslash and a line feed inside a cell are written with a
backslash.
-/

namespace Gherkin

structure Table where
  rows : List (List String)
  location : Location
deriving DecidableEq, Repr

namespace Table

def headers (t : Table) : List String := t.rows.headD []

def dataRows (t : Table) : List (List String) := t.rows.drop 1

def width (t : Table) : Nat := t.headers.length

def isEmpty (t : Table) : Bool := t.dataRows.isEmpty

def hasColumn (t : Table) (name : String) : Bool := t.headers.contains name

/-- Each data row as pairs of a header and a cell, as far as both go. -/
def records (t : Table) : List (List (String × String)) :=
  t.dataRows.map t.headers.zip

/-! ## Reading a row -/

/-- The characters of a row with its escapes read; a pipe that separates cells is nothing. -/
def marks : List Char → List (Option Char)
  | [] => []
  | '\\' :: c :: cs =>
    if c = '|' || c = '\\' then some c :: marks cs
    else if c = 'n' then some '\n' :: marks cs
    else some '\\' :: some c :: marks cs
  | c :: cs => (if c = '|' then none else some c) :: marks cs

/-- A written row less the blanks around it and its first pipe. -/
def rowBody (row : List Char) : List Char :=
  match Text.trim row with
  | '|' :: cs => cs
  | cs => cs

/-- The trimmed cells of a written row.  What follows the last pipe is a cell unless it is blank. -/
def splitCells (row : String) : List String :=
  let pieces := ((marks (rowBody row.toList)).splitOn none).map fun piece =>
    Text.trim (piece.filterMap id)
  let tail := pieces.getLastD []
  (pieces.dropLast ++ if tail.isEmpty then [] else [tail]).map String.ofList

/-! ## Writing rows -/

def escapeCell (cell : List Char) : List Char :=
  cell.flatMap fun c =>
    if c = '\\' || c = '|' then ['\\', c] else if c = '\n' then ['\\', 'n'] else [c]

/-- The cell followed by spaces up to `width` characters.  Widths are not bounded here: it is assumed that cells are
not wider than a field can be padded, 65535 characters where the width is kept in 16 bits. -/
def pad (width : Nat) (cell : List Char) : List Char :=
  cell ++ List.replicate (width - cell.length) ' '

def columnWidths (rows : List (List (List Char))) : List Nat :=
  let columns := (rows.map List.length).foldl max 0
  (List.range columns).map fun i =>
    (rows.filterMap fun row => row[i]?.map List.length).foldl max 0

def formatRow (widths : List Nat) (row : List (List Char)) : List Char :=
  ['|', ' '] ++ List.intercalate [' ', '|', ' '] (List.zipWith pad widths row) ++ [' ', '|']

def writtenRows (t : Table) : List (List Char) :=
  let escaped := t.rows.map fun row => row.map fun cell => escapeCell cell.toList
  escaped.map (formatRow (columnWidths escaped))

end Table

end Gherkin
