import Gherkin.Proofs.Printing.Keywords

/-!
# Printed headers and their descriptions

The header of a block is its keyword line with the lines of its description.  The description is read as the
lines that are not empty, each with the number of line ends before it, and joined from these again.
-/

namespace Gherkin

namespace Printed

variable {source : List Char}

/-! ## Descriptions -/

def countedLines : Nat → List (List Char) → List (Nat × String)
  | _, [] => []
  | n, l :: ls =>
    if l.isEmpty then countedLines (n + 1) ls else (n, String.ofList l) :: countedLines 1 ls

theorem countedLines_nil_cons (n : Nat) (ls : List (List Char)) :
    countedLines n ([] :: ls) = countedLines (n + 1) ls := rfl

theorem countedLines_cons {l : List Char} (h : l ≠ []) (n : Nat) (ls : List (List Char)) :
    countedLines n (l :: ls) = (n, String.ofList l) :: countedLines 1 ls := by
  have hempty : l.isEmpty = false := by simpa using h
  rw [countedLines, hempty]
  rfl

theorem getLast?_ne_of_cons {l : List Char} {ls : List (List Char)}
    (h : (l :: ls).getLast? ≠ some []) : ls.getLast? ≠ some [] := by
  intro hlast
  cases ls with
  | nil => simp at hlast
  | cons m ls => exact h (by rwa [List.getLast?_cons_cons])

-- The counts give the empty lines back, as the last line is not one of them.
theorem flatMap_countedLines {n : Nat} {ls : List (List Char)} (hlast : ls.getLast? ≠ some [])
    (hn : ls = [] → n = 0) :
    ((countedLines (n + 1) ls).flatMap fun (newlines, line) =>
      List.replicate (newlines - 1) "" ++ [line]) = List.replicate n "" ++ ls.map String.ofList := by
  induction ls generalizing n with
  | nil =>
    rw [hn rfl]
    rfl
  | cons l ls ih =>
    have hlast' := getLast?_ne_of_cons hlast
    by_cases hl : l = []
    · have hls : ls ≠ [] := by
        rintro rfl
        exact hlast (by rw [hl]; rfl)
      rw [hl, countedLines_nil_cons, ih hlast' fun h => absurd h hls, List.replicate_succ', List.append_assoc]
      rfl
    · rw [countedLines_cons hl, List.flatMap_cons, @ih 0 hlast' fun _ => rfl, List.map_cons]
      simp

theorem joinDescription_countedLines {n : Nat} {ls : List (List Char)} (h : AreProse ls) :
    Reader.joinDescription (countedLines n ls) =
      some (String.ofList (List.intercalate ['\n'] ls)) := by
  rcases h.first with ⟨l, more, hls, hl⟩
  have hlast : more.getLast? ≠ some [] := getLast?_ne_of_cons (hls ▸ h.last)
  rw [hls, countedLines_cons hl]
  show some (String.intercalate "\n" (String.ofList l :: (countedLines (0 + 1) more).flatMap _)) = _
  rw [flatMap_countedLines hlast fun _ => rfl]
  congr 1
  apply String.toList_inj.1
  rw [String.toList_intercalate, String.toList_ofList]
  simp

/-! ## Reading descriptions -/

-- No entry starts with free text.
theorem not_isInline_of_heads {e : Entry} {t : Token} {more : List Token} (h : e.Heads source t more) :
    t.kind.isInline = false := by
  cases e with
  | tag | block | step | row | docString => rw [h.1]; rfl

theorem descriptionLines_of_spells {es : List Entry} {ts : List Token} {n : Nat}
    (h : Spells source es ts) :
    ∃ rest, Reader.descriptionLines source n ts = ([], rest) ∧ Spells source es rest := by
  fun_induction Reader.descriptionLines source n ts with
  | case1 => exact ⟨[], rfl, h⟩
  | case2 n t ts ht ih => exact ih ((spells_cons_newline ht).1 h)
  | case3 n t _ ht u ts hu ih =>
    have hgap : Reader.skipGaps (t :: u :: ts) = Reader.skipGaps ts := by
      unfold Reader.skipGaps
      rw [List.dropWhile_cons_of_pos (by simp [Reader.isGap, ht]),
        List.dropWhile_cons_of_pos (by simp [Reader.isGap, hu])]
    exact ih ((Reader.spells_congr hgap).1 h)
  | case4 n t _ ht u ts hu ih =>
    have hgap : Reader.skipGaps (t :: u :: ts) = Reader.skipGaps (u :: ts) :=
      List.dropWhile_cons_of_pos (by simp [Reader.isGap, ht])
    exact ih ((Reader.spells_congr hgap).1 h)
  | case5 n t _ ht =>
    have hgap : Reader.skipGaps [t] = Reader.skipGaps [] :=
      List.dropWhile_cons_of_pos (by simp [Reader.isGap, ht])
    exact ⟨[], rfl, (Reader.spells_congr hgap).1 h⟩
  | case6 n t ts hnewline hcomment hinline _ more rest hlines ih =>
    have hskip : Reader.skipGaps (t :: ts) = t :: ts :=
      List.dropWhile_cons_of_neg (by simp [Reader.isGap, hnewline, hcomment])
    rcases Reader.heads_of_spells h hskip with ⟨e, es', -, hheads, -⟩
    rw [not_isInline_of_heads hheads] at hinline
    simp at hinline
  | case7 n t ts => exact ⟨t :: ts, rfl, h⟩

theorem onOneLine_prose {l : List Char} (h : l ≠ [] → IsProseLine l) : OnOneLine l := by
  by_cases hempty : l = []
  · rw [hempty]
    exact onOneLine_nil
  · exact onOneLine_of_trim_eq (h hempty).trimmed (h hempty).oneLine

-- The lines of a description, and no more, are read as free text.
theorem descriptionLines_prose {n k : Nat} {ls : List (List Char)} {rest : Printed} {loc : Location}
    {es : List Entry} (hls : ∀ l ∈ ls, l ≠ [] → IsProseLine l)
    (hat : loc.At source (text (atLevel n ls ++ rest)).toList)
    (h : Spells source es (tokens (loc.past (text (atLevel n ls)).toList) rest)) :
    ∃ more, Reader.descriptionLines source k (tokens loc (atLevel n ls ++ rest)) =
      (countedLines k ls, more) ∧ Spells source es more := by
  induction ls generalizing k loc with
  | nil => exact descriptionLines_of_spells h
  | cons l ls ih =>
    have hprose : ∀ m ∈ ls, m ≠ [] → IsProseLine m := fun m hm => hls m (List.mem_cons_of_mem l hm)
    have honeLine := onOneLine_prose (hls l List.mem_cons_self)
    rw [atLevel_cons, List.cons_append] at hat ⊢
    have hnext : (loc.past (text [(n, l)]).toList).At source (text (atLevel n ls ++ rest)).toList :=
      at_past_text hat
    rw [atLevel_cons, ← List.singleton_append, toList_text_append, Location.past_append] at h
    by_cases hl : l = []
    · -- An empty line is a line end more before the next line.
      subst hl
      rcases exists_tokens_cons hat honeLine rfl with ⟨lineEnd, hlineEnd, htokens⟩
      rcases ih (k := k + 1) hprose hnext h with ⟨more, hmore, hrest⟩
      refine ⟨more, ?_, hrest⟩
      rw [htokens, body_line_nil, Scan.ofBody_nil, countedLines_nil_cons]
      exact (Reader.descriptionLines_of_newline hlineEnd).trans hmore
    · -- A line of prose opens with free text, which the reader takes as a whole.
      have hline := hls l List.mem_cons_self hl
      have hfence : Scan.fence? (line (n, l)) = none :=
        Scan.fence?_eq_none (body_line hl) isGap_of_mem_replicate hline.opens.not_isGap
          hline.opens.opening?_eq_none
      rcases exists_tokens_cons hat honeLine hfence with ⟨lineEnd, hlineEnd, htokens⟩
      rcases @Scan.exists_tokens_of_opensProse .english true loc _ _ (isGap_of_mem_replicate (n := 2 * n))
        hline.opens with ⟨t, words, hwords, ht, hloc, hinline⟩
      rcases ih (k := 1) hprose hnext h with ⟨more, hmore, hrest⟩
      refine ⟨more, ?_, hrest⟩
      rw [toList_text_cons, body_line hl, List.append_assoc] at hat
      have htext : Reader.textFrom source t.location.offset = String.ofList l := by
        rw [hloc, hat.past.textFrom_line hline.oneLine (Or.inr ⟨_, Or.inl rfl⟩), hline.trimmed]
      rw [htokens, body_line hl, hwords, List.cons_append, Reader.descriptionLines_of_isInline ht,
        skipLine_append_newline hinline hlineEnd, Reader.descriptionLines_of_newline hlineEnd, hmore, htext,
        countedLines_cons hl]

/-! ## Headers -/

theorem exists_shift_prose (n : Nat) {d : Option String} (h : ∀ s ∈ d, IsDescription s) :
    ∃ ls, (∀ l ∈ ls, l ≠ [] → IsProseLine l) ∧ shift n (prose d) = atLevel (n + 1) ls ∧
      ∀ k, Reader.joinDescription (countedLines k ls) = d := by
  cases d with
  | none => exact ⟨[], by simp, rfl, fun _ => rfl⟩
  | some s =>
    rcases h s rfl with ⟨ls, hls, hs⟩
    refine ⟨ls, hls.lines, ?_, fun k => ?_⟩
    · have honeLine : ∀ l ∈ ls, OnOneLine l := fun l hl => onOneLine_prose (hls.lines l hl)
      have hbodies := Text.map_body_lines_intercalate (fun l hl => (honeLine l hl).1)
        (fun l hl => (honeLine l hl).2) hls.last
      have hprose : prose (some s) = atLevel 1 ls := by
        unfold atLevel
        rw [← hbodies, ← hs, List.map_map]
        exact List.append_nil _
      rw [hprose, shift_atLevel, Nat.add_comm]
    · rw [joinDescription_countedLines hls, ← hs, String.ofList_toList]

theorem exists_name_block (b : Block) :
    ∃ c cs, b.name.toList = c :: cs ∧ Text.isAlphabetic c ∧ '\n' ∉ b.name.toList := by
  cases b <;> exact ⟨_, _, rfl, by decide, by decide⟩

theorem exists_shift_header (n : Nat) (b : Block) {title : String} (h : IsTitle title) :
    ∃ tail, shift n (header b.name title) = [(n, b.name.toList ++ ':' :: tail)] ∧
      String.ofList (Text.trim tail) = title ∧ '\n' ∉ tail ∧
      OnOneLine (b.name.toList ++ ':' :: tail) := by
  rcases exists_name_block b with ⟨-, -, -, -, hlf⟩
  unfold header
  rw [shift_singleton]
  by_cases hempty : title = ""
  · subst hempty
    refine ⟨[], rfl, rfl, by simp, ?_⟩
    exact OnOneLine.append hlf (by simp) (onOneLine_of_not_mem (by decide) (by decide))
  · have hne : title.toList ≠ [] := by simpa using hempty
    have hisEmpty : title.isEmpty = false := by simpa using hempty
    have hcolon : OnOneLine ([':', ' '] ++ title.toList) :=
      (onOneLine_of_trim_eq h.1 h.2).append (by decide) hne
    rw [hisEmpty]
    refine ⟨' ' :: title.toList, rfl, ofList_trim_space_cons h, by simpa using h.2, ?_⟩
    exact hcolon.append hlf (by simp)

-- The keyword line of a header, and a line end before the tokens of what follows.
theorem exists_tokens_header {n : Nat} {b : Block} {tail : List Char} {loc : Location} {ls : Printed}
    (honeLine : OnOneLine (b.name.toList ++ ':' :: tail)) (hlf : '\n' ∉ tail)
    (hat : loc.At source (text ((n, b.name.toList ++ ':' :: tail) :: ls)).toList) :
    ∃ t words lineEnd, t.kind = .block b ∧
      Reader.titleOf source t = String.ofList (Text.trim tail) ∧ (∀ w ∈ words, w.kind.isInline) ∧
      lineEnd.kind = .newline ∧ tokens loc ((n, b.name.toList ++ ':' :: tail) :: ls) =
        t :: (words ++ lineEnd ::
          tokens (loc.past (text [(n, b.name.toList ++ ':' :: tail)]).toList) ls) := by
  rcases exists_name_block b with ⟨c, word, hword, hc, -⟩
  have hcs : c :: (word ++ ':' :: tail) = b.name.toList ++ ':' :: tail := by
    rw [hword, List.cons_append]
  have hbody : (line (n, b.name.toList ++ ':' :: tail)).body =
      List.replicate (2 * n) ' ' ++ c :: (word ++ ':' :: tail) := by
    rw [body_line (by simp), hcs]
  have hfence := Scan.fence?_eq_none_of_isAlphabetic hbody isGap_of_mem_replicate hc
  rcases exists_tokens_cons hat honeLine hfence with ⟨lineEnd, hlineEnd, htokens⟩
  rw [toList_text_cons, hbody] at hat
  rcases exists_tokens_of_keyword isGap_of_mem_replicate hc (Lexeme.keyword?_header hcs) hat hlf with
    ⟨t, words, hwords, hkind, htitle, hinline⟩
  refine ⟨t, words, lineEnd, hkind, htitle, hinline, hlineEnd, ?_⟩
  rw [htokens, hbody, hwords, List.cons_append]

theorem prints_header (n : Nat) (b : Block) {title : String} {d : Option String} (htitle : IsTitle title)
    (hd : ∀ s ∈ d, IsDescription s) :
    Prints source (shift n (header b.name title ++ prose d)) [.block b title d] := by
  rcases exists_shift_header n b htitle with ⟨tail, hheader, htrim, hlf, honeLine⟩
  rcases exists_shift_prose n hd with ⟨ls, hls, hprose, hjoin⟩
  rw [shift_append, hheader, hprose, List.singleton_append]
  constructor
  · intro l hl
    rcases List.mem_cons.1 hl with rfl | hl
    · exact honeLine
    · rcases List.mem_map.1 hl with ⟨cs, hcs, rfl⟩
      exact onOneLine_prose (hls cs hcs)
  · intro loc rest es' _ hat h
    rw [List.cons_append] at hat
    rw [List.singleton_append, List.cons_append]
    rcases exists_tokens_header honeLine hlf hat with
      ⟨t, words, lineEnd, hkind, htitle', hinline, hlineEnd, htokens⟩
    rw [← List.singleton_append] at hat h
    rw [toList_text_append, Location.past_append] at h
    rcases descriptionLines_prose (k := 1) hls (at_past_text hat) h with ⟨more, hmore, hspells⟩
    -- The line end of the keyword line is the first that the description counts.
    have hlines : Reader.descriptionLines source 0 (Reader.skipLine (words ++ lineEnd ::
        tokens (loc.past (text [(n, b.name.toList ++ ':' :: tail)]).toList) (atLevel (n + 1) ls ++ rest))) =
        (countedLines 1 ls, more) := by
      rw [skipLine_append_newline hinline hlineEnd]
      exact (Reader.descriptionLines_of_newline hlineEnd).trans hmore
    rw [htokens]
    apply spells_cons
    · refine ⟨hkind, htitle'.trans htrim, ?_⟩
      unfold Reader.headerDescription Reader.description
      rw [hlines]
      exact hjoin 1
    · show Spells source es' (Reader.descriptionLines source 0 _).2
      rw [hlines]
      exact hspells

end Printed

end Gherkin
