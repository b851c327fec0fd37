import Gherkin.Proofs.Printing.Spelling

/-!
# Printed tables and doc strings

A line of a table spells its row, whatever the padding of the columns.  The lines of a doc string, from one
delimiter to the other, make one token: none of them closes it early, and what is read of them is the content.
-/

namespace Gherkin

namespace Printed

variable {source : List Char}

/-! ## Rows -/

theorem prints_row (n : Nat) {widths : List Nat} {cells : List String} (hcells : cells ≠ [])
    (hwidths : cells.length ≤ widths.length) (htrim : ∀ c ∈ cells, Text.trim c.toList = c.toList) :
    Prints source [(n, Table.formatRow widths (cells.map fun c => Table.escapeCell c.toList))]
      [.row cells] := by
  have hsplit := Table.splitCells_formatRow hcells hwidths htrim
  rcases Table.exists_formatRow_eq hcells hwidths with ⟨cs, hcs, hlf⟩
  rw [hcs] at hsplit ⊢
  have hbody : (line (n, '|' :: cs ++ ['|'])).body =
      List.replicate (2 * n) ' ' ++ '|' :: (cs ++ ['|']) := body_line (by simp)
  have htrimEnd : Text.trimEnd ('|' :: (cs ++ ['|'])) = '|' :: (cs ++ ['|']) := by
    rw [← List.cons_append]
    exact Text.dropEndWhile_concat_of_not _ (by decide)
  apply Prints.of_line
  · exact onOneLine_of_trim_eq (Table.trim_pipes cs) hlf
  · refine Scan.fence?_eq_none hbody isGap_of_mem_replicate ?_
      (Delimiter.opening?_cons_eq_none (by decide) (by decide) _)
    simpa using by decide
  · intro loc rest lineEnd ts es' hlineEnd hat hts
    rcases @Scan.exists_tokens_of_row .english true loc _ _ (isGap_of_mem_replicate (n := 2 * n)) htrimEnd
      with ⟨t, htokens, hkind, htext⟩
    rw [hbody, htokens]
    apply spells_cons
    · refine ⟨hkind, ?_⟩
      rw [htext, ← List.cons_append]
      exact hsplit
    · exact (spells_cons_newline hlineEnd).2 hts

theorem prints_table (n : Nat) {t : Table} (ht : t.Printable) :
    Prints source (shift n t.print) t.entries := by
  let escape : List String → List (List Char) := fun row => row.map fun c => Table.escapeCell c.toList
  have hprint : shift n t.print = t.rows.flatMap fun row =>
      [(n, Table.formatRow (Table.columnWidths (t.rows.map escape)) (escape row))] := by
    show shift n (atLevel 0 t.writtenRows) = _
    rw [shift_atLevel, Nat.zero_add, ← List.map_eq_flatMap]
    unfold atLevel Table.writtenRows
    simp only [List.map_map]
    rfl
  have hentries : t.entries = t.rows.flatMap fun row => [Entry.row row] := List.map_eq_flatMap
  rw [hprint, hentries]
  apply Prints.flatMap
  intro row hrow
  apply prints_row n
  · rintro rfl
    exact ht.cells hrow
  · have hlength := Table.length_le_columnWidths (List.mem_map_of_mem (f := escape) hrow)
    rwa [List.length_map] at hlength
  · exact ht.trimmed row hrow

theorem prints_tables (n : Nat) {table : Option Table} (h : ∀ t ∈ table, t.Printable) :
    Prints source (shift n (table.toList.flatMap Table.print)) (table.toList.flatMap Table.entries) := by
  rw [shift_flatMap]
  apply Prints.flatMap
  intro t ht
  exact prints_table n (h t (Option.mem_toList.1 ht))

/-! ## The content of a doc string -/

def docLines (n : Nat) (d : DocString) : Printed :=
  atLevel n ((d.content.toList.splitOn '\n').map d.delimiter.escape)

theorem exists_of_mem_docLines {n : Nat} {d : DocString} {l : Nat × List Char} (h : l ∈ docLines n d) :
    ∃ cs ∈ d.content.toList.splitOn '\n', l = (n, d.delimiter.escape cs) := by
  rcases List.mem_map.1 h with ⟨written, hwritten, rfl⟩
  rcases List.mem_map.1 hwritten with ⟨cs, hcs, rfl⟩
  exact ⟨cs, hcs, rfl⟩

theorem onOneLine_escape (delimiter : Delimiter) {cs : List Char} (h : OnOneLine cs) :
    OnOneLine (delimiter.escape cs) := by
  have hescaped : ∀ c ∈ delimiter.escaped, c ≠ '\n' ∧ c ≠ '\r' := by
    cases delimiter <;> simp [Delimiter.escaped, Delimiter.mark]
  constructor
  · intro hlf
    rcases Text.mem_of_mem_replaceAll hlf with hlf | hlf
    · exact h.1 hlf
    · exact (hescaped _ hlf).1 rfl
  · exact Text.getLast?_replaceAll_ne (fun hcr => (hescaped _ hcr).2 rfl) (by simp [Delimiter.escaped]) h.2

theorem oneLine_docLines {n : Nat} {d : DocString} (hd : d.Printable) :
    ∀ l ∈ docLines n d, OnOneLine l.2 := by
  intro l hl
  rcases exists_of_mem_docLines hl with ⟨cs, hcs, rfl⟩
  exact onOneLine_escape d.delimiter ⟨Text.not_mem_of_mem_splitOn hcs, hd.noReturn cs hcs⟩

-- A written line loses its indentation when it is read, and nothing else.
theorem stripIndent_line (n : Nat) {cs : List Char} (hcs : OnOneLine cs) :
    Delimiter.stripIndent (2 * n) (Text.dropEndWhile (· = '\r') (line (n, cs)).body) = cs := by
  rw [Text.dropEndWhile_of_getLast?_ne (onOneLine_line (l := (n, cs)) hcs).2]
  by_cases hempty : cs = []
  · rw [hempty]
    cases n <;> rfl
  · rw [body_line hempty, Delimiter.stripIndent_spaces]

-- The lines of a content that is written are read as the content.
theorem content_docLines (n : Nat) {d : DocString} (hd : d.Printable) :
    d.delimiter.content (2 * n) ((docLines n d).map line) = d.content.toList := by
  have hwritten : ((docLines n d).map line).map (fun l =>
      Delimiter.stripIndent (2 * n) (Text.dropEndWhile (· = '\r') l.body)) =
      (d.content.toList.splitOn '\n').map d.delimiter.escape := by
    have hstrip : ∀ l ∈ docLines n d,
        Delimiter.stripIndent (2 * n) (Text.dropEndWhile (· = '\r') (line l).body) = l.2 := by
      intro l hl
      have hline := oneLine_docLines hd l hl
      rcases exists_of_mem_docLines hl with ⟨cs, -, rfl⟩
      exact stripIndent_line n hline
    rw [List.map_map]
    refine (List.map_congr_left hstrip).trans ?_
    unfold docLines atLevel
    rw [List.map_map]
    exact List.map_id _
  unfold Delimiter.content
  dsimp only
  rw [hwritten, ← Delimiter.escape_intercalate, List.intercalate_splitOn,
    Delimiter.unescape_escape hd.settled]

/-! ## Where a doc string closes -/

theorem closes_line {delimiter : Delimiter} (n : Nat) :
    delimiter.closes (line (n, delimiter.chars)).body = true := by
  have hne : delimiter.chars ≠ [] := by cases delimiter <;> decide
  unfold Delimiter.closes Text.trimStart
  rw [body_line hne, List.dropWhile_append_of_pos isBlank_of_mem_replicate]
  cases delimiter <;> rfl

theorem not_closes_docLines (n : Nat) (d : DocString) :
    ∀ l ∈ (docLines n d).map line, d.delimiter.closes l.body = false := by
  intro l hl
  rcases List.mem_map.1 hl with ⟨m, hm, rfl⟩
  rcases exists_of_mem_docLines hm with ⟨cs, -, rfl⟩
  by_cases hempty : d.delimiter.escape cs = []
  · rw [hempty]
    rfl
  · rw [body_line hempty]
    exact Delimiter.not_closes_escape isBlank_of_mem_replicate _

/-! ## Doc strings -/

def opener (n : Nat) (d : DocString) : Nat × List Char :=
  (n, d.delimiter.chars ++ (d.contentType.getD "").toList)

theorem shift_docString (n : Nat) (d : DocString) :
    shift n d.print = opener n d :: (docLines n d ++ [(n, d.delimiter.chars)]) := by
  have hprint : d.print = atLevel 0 ((d.delimiter.chars ++ (d.contentType.getD "").toList) ::
      ((d.content.toList.splitOn '\n').map d.delimiter.escape ++ [d.delimiter.chars])) := by
    unfold DocString.print atLevel
    simp
  rw [hprint, shift_atLevel, Nat.zero_add, atLevel_cons, atLevel_append]
  rfl

theorem onOneLine_chars (delimiter : Delimiter) : OnOneLine delimiter.chars := by
  cases delimiter <;> exact onOneLine_of_not_mem (by decide) (by decide)

theorem onOneLine_opener (n : Nat) {d : DocString} (hd : d.Printable) : OnOneLine (opener n d).2 := by
  have hchars := onOneLine_chars d.delimiter
  unfold opener
  cases htype : d.contentType with
  | none =>
    show OnOneLine (d.delimiter.chars ++ [])
    rwa [List.append_nil]
  | some s =>
    rcases hd.contentType s htype with ⟨htitle, hne⟩
    exact (onOneLine_of_trim_eq htitle.1 htitle.2).append hchars.1 (by simpa using hne)

theorem oneLine_docString (n : Nat) {d : DocString} (hd : d.Printable) :
    ∀ l ∈ shift n d.print, OnOneLine l.2 := by
  intro l hl
  rw [shift_docString] at hl
  rcases List.mem_cons.1 hl with rfl | hl
  · exact onOneLine_opener n hd
  · rcases List.mem_append.1 hl with hl | hl
    · exact oneLine_docLines hd l hl
    · rw [List.mem_singleton.1 hl]
      exact onOneLine_chars d.delimiter

theorem contentType_of_written {d : DocString} (hd : d.Printable) {f : Scan.Fence}
    (h : f.annotation = (d.contentType.getD "").toList) : f.contentType = d.contentType := by
  unfold Scan.Fence.contentType
  dsimp only
  rw [h]
  cases htype : d.contentType with
  | none => rfl
  | some s =>
    rcases hd.contentType s htype with ⟨htitle, hne⟩
    have hempty : s.toList.isEmpty = false := by simpa using hne
    rw [Option.getD_some, htitle.1, hempty, String.ofList_toList]
    rfl

theorem column_past_spaces (loc : Location) (n : Nat) :
    (loc.past (List.replicate n ' ')).column = loc.column + n := by
  induction n generalizing loc with
  | zero => rfl
  | succ n ih =>
    have hnext : (loc.next ' ').column = loc.column + 1 := rfl
    rw [List.replicate_succ, Location.past_cons, ih, hnext]
    omega

theorem body_opener (n : Nat) (d : DocString) : (line (opener n d)).body =
    List.replicate (2 * n) ' ' ++ (d.delimiter.chars ++ (d.contentType.getD "").toList) :=
  body_line (by cases d.delimiter <;> simp [Delimiter.chars])

-- The lines of a doc string are one token and a line end, and no fault.
theorem exists_lines_docString (n : Nat) {d : DocString} (hd : d.Printable) {loc : Location}
    (hcolumn : loc.column = 1) (rest : Printed) :
    ∃ stop lineEnd, lineEnd.kind = .newline ∧
      Scan.lines .english loc true ((shift n d.print ++ rest).map line) =
        .token ⟨.docString, d.content, loc.past (List.replicate (2 * n) ' '), stop, d.contentType⟩ ::
          .token lineEnd :: Scan.lines .english (loc.past (text (shift n d.print)).toList) true
            (rest.map line) := by
  let f : Scan.Fence := ⟨d.delimiter, List.replicate (2 * n) ' ', (d.contentType.getD "").toList⟩
  let span := f.openingSpan ++ ['\n'] ++ ((docLines n d).map line).flatMap Text.Line.chars ++
    (line (n, d.delimiter.chars)).body
  let finish := (loc.past f.indent).past span
  have hfence : Scan.fence? (line (opener n d)) = some f :=
    Scan.fence?_of_delimiter (body_opener n d) isGap_of_mem_replicate
  have hline := @Scan.line_of_fence? .english true loc _ _ _ (rest.map line) _ hfence
    (not_closes_docLines n d) (closes_line n)
  -- The content is stripped by the column of the delimiter, which is the indentation.
  have hstart : (loc.past f.indent).column - 1 = 2 * n := by
    rw [column_past_spaces, hcolumn]
    omega
  have hadvance : Scan.advance loc (line (opener n d))
      ((docLines n d).map line ++ [line (n, d.delimiter.chars)]) =
      loc.past (text (opener n d :: (docLines n d ++ [(n, d.delimiter.chars)]))).toList := by
    rw [toList_text]
    unfold Scan.advance
    simp
  have hmap : (opener n d :: (docLines n d ++ [(n, d.delimiter.chars)]) ++ rest).map line =
      line (opener n d) :: ((docLines n d).map line ++ line (n, d.delimiter.chars) :: rest.map line) := by
    simp
  refine ⟨finish.offset, ⟨.newline, "\n", finish, (finish.past ['\n']).offset, none⟩, rfl, ?_⟩
  rw [shift_docString, hmap, Scan.lines, hline]
  dsimp only
  rw [hadvance, hstart, content_docLines n hd, Scan.Fence.token, String.ofList_toList,
    contentType_of_written hd rfl]
  rfl

theorem exists_tokens_docString (n : Nat) {d : DocString} (hd : d.Printable) {loc : Location}
    (hcolumn : loc.column = 1) (rest : Printed) :
    ∃ stop lineEnd, lineEnd.kind = .newline ∧ tokens loc (shift n d.print ++ rest) =
      ⟨.docString, d.content, loc.past (List.replicate (2 * n) ' '), stop, d.contentType⟩ ::
        lineEnd :: tokens (loc.past (text (shift n d.print)).toList) rest := by
  rcases exists_lines_docString n hd hcolumn rest with ⟨stop, lineEnd, hlineEnd, hlines⟩
  refine ⟨stop, lineEnd, hlineEnd, ?_⟩
  have hlive : ∀ t ∈ [(⟨.docString, d.content, loc.past (List.replicate (2 * n) ' '), stop,
      d.contentType⟩ : Token), lineEnd], t.kind ≠ .eof := by
    simp [hlineEnd]
  unfold tokens
  rw [hlines]
  exact Reader.live_append hlive _

theorem prints_docString (n : Nat) {d : DocString} (hd : d.Printable) :
    Prints source (shift n d.print) [.docString d] := by
  refine ⟨oneLine_docString n hd, fun loc rest es' hcolumn hat h => ?_⟩
  rcases exists_tokens_docString n hd hcolumn rest with ⟨stop, lineEnd, hlineEnd, htokens⟩
  rw [htokens]
  apply spells_cons
  · refine ⟨rfl, ?_⟩
    rw [shift_docString, List.cons_append, toList_text_cons, body_opener, List.append_assoc,
      List.append_assoc] at hat
    rw [hat.past.docString]
  · exact (spells_cons_newline hlineEnd).2 h

end Printed

end Gherkin
