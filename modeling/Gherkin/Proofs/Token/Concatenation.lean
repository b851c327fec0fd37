import Gherkin.Proofs.Token.Moving

/-!
# Sources put together

A source that ends with a line feed and leaves no doc string open is scanned as it is on its own when
more text follows it, and so is the text that follows, except that its locations count on from the end
of the source.
-/

namespace Gherkin

namespace Scan

/-! ## More lines -/

/-- No doc string is left open. -/
def Terminated (xs : List Scanned) : Prop :=
  ∀ e, .error e ∈ xs → e.fault ≠ .unterminatedDocString

theorem Terminated.of_subset {xs ys : List Scanned} (h : Terminated ys) (hsub : xs ⊆ ys) :
    Terminated xs := fun e he => h e (hsub he)

variable {d : Dialect}

theorem cut?_append {p : Text.Line → Bool} {ls before after : List Text.Line} {found : Text.Line}
    (h : cut? p ls = some (before, found, after)) (more : List Text.Line) :
    cut? p (ls ++ more) = some (before, found, after ++ more) := by
  fun_induction cut? p ls generalizing before found after with
  | case1 => simp at h
  | case2 l ls hl =>
    simp only [Option.some.injEq, Prod.mk.injEq] at h
    obtain ⟨rfl, rfl, rfl⟩ := h
    rw [List.cons_append, cut?, if_pos hl]
  | case3 l ls hl ih =>
    obtain ⟨⟨_, _, _⟩, hcut, hparts⟩ := Option.map_eq_some_iff.1 h
    simp only [Prod.mk.injEq] at hparts
    obtain ⟨rfl, rfl, rfl⟩ := hparts
    rw [List.cons_append, cut?, if_neg hl, ih hcut]
    rfl

/-- The line opens a doc string that none of the lines after it closes. -/
def StaysOpen (l : Text.Line) (ls : List Text.Line) : Prop :=
  ∃ f, fence? l = some f ∧ cut? (fun l => f.delimiter.closes l.body) ls = none

theorem not_terminated_of_staysOpen {loc : Location} {afterBlank : Bool} {l : Text.Line}
    {ls : List Text.Line} (h : StaysOpen l ls) : ¬ Terminated (line d loc afterBlank l ls).results := by
  obtain ⟨f, hfence, hopen⟩ := h
  intro hterminated
  unfold line at hterminated
  rw [hfence] at hterminated
  dsimp only at hterminated
  rw [hopen] at hterminated
  exact hterminated _ List.mem_cons_self rfl

theorem cut?_eq_none_iff {p : Text.Line → Bool} {ls : List Text.Line} :
    cut? p ls = none ↔ ∀ l ∈ ls, ¬ p l := by
  induction ls with
  | nil => simp [cut?]
  | cons l ls ih =>
    rw [cut?, List.forall_mem_cons]
    by_cases hl : p l
    · simp [hl]
    · rw [if_neg hl, Option.map_eq_none_iff, ih, and_iff_right hl]

/-- A line yields the same with more lines behind, unless a doc string that it opens is closed there. -/
theorem line_append {loc : Location} {afterBlank : Bool} {l : Text.Line} {ls more : List Text.Line}
    (h : StaysOpen l ls → StaysOpen l (ls ++ more)) :
    line d loc afterBlank l (ls ++ more) =
      { line d loc afterBlank l ls with rest := (line d loc afterBlank l ls).rest ++ more } := by
  unfold line
  cases hfence : fence? l with
  | none => rfl
  | some f =>
    dsimp only
    cases hclosed : cut? (fun l => f.delimiter.closes l.body) ls with
    | none =>
      obtain ⟨f', hfence', hopen⟩ := h ⟨f, hfence, hclosed⟩
      obtain rfl := Option.some.inj (hfence.symm.trans hfence')
      rw [hopen]
    | some found => rw [cut?_append hclosed more]

theorem past_advance (d : Dialect) (loc : Location) (afterBlank : Bool) (l : Text.Line) (ls : List Text.Line) :
    (advance loc l (line d loc afterBlank l ls).taken).past
        ((line d loc afterBlank l ls).rest.flatMap Text.Line.chars) =
      loc.past ((l :: ls).flatMap Text.Line.chars) := by
  rw [advance, ← Location.past_append, List.append_assoc, ← List.flatMap_append, line_taken_append_rest,
    List.flatMap_cons]

/-- Lines that leave no doc string open yield the same whatever lines follow them. -/
theorem exists_lines_append {loc : Location} {afterBlank : Bool} {ls : List Text.Line}
    (hstart : ls ≠ [] ∨ afterBlank = true) (h : Terminated (lines d loc afterBlank ls)) :
    ∃ xs finish, finish = loc.past (ls.flatMap Text.Line.chars) ∧
      lines d loc afterBlank ls = xs ++ [.token ⟨.eof, "", finish, finish.offset, none⟩] ∧
      ∀ more, lines d loc afterBlank (ls ++ more) = xs ++ lines d finish true more := by
  fun_induction lines d loc afterBlank ls with
  | case1 loc afterBlank =>
    obtain rfl : afterBlank = true := hstart.resolve_left (by simp)
    exact ⟨[], loc, rfl, rfl, fun _ => rfl⟩
  | case2 loc afterBlank l ls step fewer ih =>
    -- A doc string that the line opens is closed among the lines, so its end is found before `more`.
    have hclosed : ¬ StaysOpen l ls := fun hopen =>
      not_terminated_of_staysOpen hopen (h.of_subset (List.subset_append_left _ _))
    obtain ⟨xs, finish, hfinish, hlines, hmore⟩ :=
      ih (Or.inr rfl) (h.of_subset (List.subset_append_right _ _))
    refine ⟨step.results ++ xs, finish, hfinish.trans (past_advance d loc afterBlank l ls),
      by rw [hlines, List.append_assoc], fun more => ?_⟩
    rw [List.cons_append, lines, line_append fun hopen => absurd hopen hclosed]
    dsimp only
    rw [hmore, List.append_assoc]

/-! ## Whole lines -/

theorem exists_ofEnding {ending : Text.LineEnd} (h : ending ≠ .missing) (loc : Location) :
    ∃ n, ofEnding loc ending = [.token n] ∧ n.kind = .newline := by
  cases ending with
  | missing => exact absurd rfl h
  | lf => exact ⟨_, rfl, rfl⟩
  | crlf => exact ⟨_, rfl, rfl⟩

theorem exists_results_line {loc : Location} {afterBlank : Bool} {l : Text.Line} {ls : List Text.Line}
    (h : ∀ l' ∈ l :: ls, l'.IsWhole) :
    ∃ xs n, (line d loc afterBlank l ls).results = xs ++ [.token n] ∧ n.kind = .newline := by
  have hl := (h l List.mem_cons_self).2
  unfold line
  cases fence? l with
  | none =>
    obtain ⟨n, hn, hkind⟩ := exists_ofEnding hl (loc.past l.body)
    exact ⟨_, n, congrArg _ hn, hkind⟩
  | some f =>
    dsimp only
    cases hclosed : cut? (fun l => f.delimiter.closes l.body) ls with
    | none =>
      obtain ⟨n, hn, hkind⟩ := exists_ofEnding hl ((loc.past f.indent).past f.openingSpan)
      exact ⟨[_, _], n, congrArg ([_, _] ++ ·) hn, hkind⟩
    | some found =>
      obtain ⟨inner, closer, rest⟩ := found
      have hcloser : closer ∈ ls := by
        rw [eq_append_of_cut? hclosed]
        simp
      obtain ⟨n, hn, hkind⟩ := exists_ofEnding (h closer (List.mem_cons_of_mem l hcloser)).2
        ((loc.past f.indent).past (f.openingSpan ++ l.ending.chars ++ inner.flatMap Text.Line.chars ++
          closer.body))
      exact ⟨[_], n, congrArg ([_] ++ ·) hn, hkind⟩

theorem exists_results_lines {loc : Location} {afterBlank : Bool} {ls : List Text.Line} (hne : ls ≠ [])
    (h : ∀ l ∈ ls, l.IsWhole) : ∃ xs n finish,
      lines d loc afterBlank ls = xs ++ [.token n, .token finish] ∧ n.kind = .newline := by
  fun_induction lines d loc afterBlank ls with
  | case1 => exact absurd rfl hne
  | case2 loc afterBlank l ls step fewer ih =>
    have hsplit : step.taken ++ step.rest = ls := line_taken_append_rest d loc afterBlank l ls
    by_cases hrest : step.rest = []
    · obtain ⟨xs, n, hresults, hkind⟩ := exists_results_line h
      rw [hrest, lines, hresults]
      exact ⟨xs, n, _, by rw [List.append_assoc]; rfl, hkind⟩
    · obtain ⟨xs, n, finish, hlines, hkind⟩ := ih hrest fun l' hl' => h l' <| by
        rw [← hsplit]
        exact List.mem_cons_of_mem l (List.mem_append_right _ hl')
      exact ⟨step.results ++ xs, n, finish, by rw [hlines, List.append_assoc], hkind⟩

/-! ## Lines that results are on -/

end Scan

theorem Location.line_past (loc : Location) (cs : List Char) :
    (loc.past cs).line = loc.line + cs.count '\n' := by
  induction cs generalizing loc with
  | nil => rfl
  | cons c cs ih =>
    rw [past_cons, ih, next]
    by_cases hc : c = '\n'
    · rw [if_pos hc, hc, List.count_cons_self, Nat.add_assoc, Nat.add_comm 1]
    · rw [if_neg hc, List.count_cons_of_ne hc]

namespace Scan

theorem exists_past_of_mem_ofBody {place : Place} {afterBlank : Bool} {loc : Location}
    {body : List Char} {x : Scanned} (h : x ∈ ofBody d place afterBlank loc body) :
    ∃ cs, cs <+: body ∧ x.location = loc.past cs := by
  fun_induction ofBody d place afterBlank loc body with
  | case1 => simp at h
  | case2 place afterBlank loc body gap c cs hdrop loc' lx shorter ih =>
    have hbody : body = gap ++ (c :: cs) := by
      rw [← hdrop]
      exact List.takeWhile_append_dropWhile.symm
    rcases List.mem_append.1 h with h | h
    · exact ⟨gap, ⟨c :: cs, hbody.symm⟩, location_of_mem_ofLexeme h⟩
    · obtain ⟨more, ⟨rest, hrest⟩, hlocation⟩ := ih h
      refine ⟨gap ++ ((lx.span ++ lx.slack) ++ more), ⟨rest, ?_⟩, ?_⟩
      · rw [hbody, ← (Lexeme.takes_take d place _ c cs).append_rest, ← hrest]
        simp [lx]
      · rw [hlocation, Location.past_append loc]
        exact (Location.past_append (loc.past gap) _ more).symm

/-- The first word and the free text of a line are on it. -/
theorem line_of_mem_ofBody {place : Place} {afterBlank : Bool} {loc : Location} {body : List Char}
    {x : Scanned} (hbody : '\n' ∉ body) (h : x ∈ ofBody d place afterBlank loc body) :
    x.location.line = loc.line := by
  obtain ⟨cs, hcs, hlocation⟩ := exists_past_of_mem_ofBody h
  have hcount : cs.count '\n' = 0 := List.count_eq_zero.2 fun hmem => hbody (hcs.subset hmem)
  rw [hlocation, Location.line_past, hcount, Nat.add_zero]

/-- The results of a line are located behind its start. -/
theorem exists_past_of_mem_line {loc : Location} {afterBlank : Bool} {l : Text.Line}
    {ls : List Text.Line} {x : Scanned} (h : x ∈ (line d loc afterBlank l ls).results) :
    ∃ cs, x.location = loc.past cs := by
  unfold line at h
  cases hfence : fence? l with
  | none =>
    rw [hfence] at h
    rcases List.mem_append.1 h with h | h
    · obtain ⟨cs, -, hlocation⟩ := exists_past_of_mem_ofBody h
      exact ⟨cs, hlocation⟩
    · exact ⟨l.body, location_of_mem_ofEnding h⟩
  | some f =>
    rw [hfence] at h
    dsimp only at h
    split at h
    · rcases List.mem_cons.1 h with rfl | h
      · exact ⟨f.indent, rfl⟩
      · exact ⟨_, by rw [location_of_mem_ofEnding h, ← Location.past_append]⟩
    · rcases List.mem_cons.1 h with rfl | h
      · exact ⟨f.indent, rfl⟩
      · rcases List.mem_cons.1 h with rfl | h
        · exact ⟨f.indent, rfl⟩
        · exact ⟨_, by rw [location_of_mem_ofEnding h, ← Location.past_append]⟩

theorem exists_past_of_mem_lines {loc : Location} {afterBlank : Bool} {ls : List Text.Line} {x : Scanned}
    (h : x ∈ lines d loc afterBlank ls) : ∃ cs, x.location = loc.past cs := by
  fun_induction lines d loc afterBlank ls with
  | case1 loc afterBlank =>
    obtain rfl := List.mem_singleton.1 h
    exact ⟨[], rfl⟩
  | case2 loc afterBlank l ls step fewer ih =>
    rcases List.mem_append.1 h with h | h
    · exact exists_past_of_mem_line h
    · obtain ⟨cs, hlocation⟩ := ih h
      exact ⟨_, by rw [hlocation, advance, ← Location.past_append]⟩

theorem le_line_of_mem_lines {loc : Location} {afterBlank : Bool} {ls : List Text.Line} {x : Scanned}
    (h : x ∈ lines d loc afterBlank ls) : loc.line ≤ x.location.line := by
  obtain ⟨cs, hlocation⟩ := exists_past_of_mem_lines h
  rw [hlocation, Location.line_past]
  exact Nat.le_add_right _ _

/-- The keyword of a block comes from a line that opens no doc string, and is on that line. -/
theorem fence?_eq_none_of_block {loc : Location} {afterBlank : Bool} {l : Text.Line} {ls : List Text.Line}
    {t : Token} (hbody : '\n' ∉ l.body) (ht : t.kind.isBlock)
    (h : .token t ∈ (line d loc afterBlank l ls).results) :
    fence? l = none ∧ t.location.line = loc.line := by
  have hending : ∀ {loc ending}, .token t ∉ ofEnding loc ending := by
    intro loc ending hmem
    rw [eq_of_token_mem_ofEnding hmem] at ht
    simp [TokenKind.isBlock] at ht
  -- A line that opens a doc string gives that one token, its fault and a line end.
  unfold line at h
  cases hfence : fence? l with
  | none =>
    rw [hfence] at h
    rcases List.mem_append.1 h with h | h
    · exact ⟨rfl, line_of_mem_ofBody hbody h⟩
    · exact absurd h hending
  | some f =>
    have hdoc : ∀ {loc content span}, Scanned.token t ≠ f.token loc content span := by
      intro loc content span heq
      rw [Scanned.token.inj heq] at ht
      simp [TokenKind.isBlock] at ht
    rw [hfence] at h
    dsimp only at h
    split at h
    · rcases List.mem_cons.1 h with h | h
      · exact absurd h hdoc
      · exact absurd h hending
    · rcases List.mem_cons.1 h with h | h
      · simp at h
      · rcases List.mem_cons.1 h with h | h
        · exact absurd h hdoc
        · exact absurd h hending

theorem count_chars {ls : List Text.Line} (h : ∀ l ∈ ls, l.IsWhole) :
    (ls.flatMap Text.Line.chars).count '\n' = ls.length := by
  induction ls with
  | nil => rfl
  | cons l ls ih =>
    obtain ⟨hbody, hending⟩ := h l List.mem_cons_self
    have hone : l.chars.count '\n' = 1 := by
      rw [Text.Line.chars, List.count_append, List.count_eq_zero.2 hbody]
      cases hkind : l.ending with
      | missing => exact absurd hkind hending
      | lf => rfl
      | crlf => rfl
    rw [List.flatMap_cons, List.count_append, hone, ih fun l' hl' => h l' (List.mem_cons_of_mem l hl'),
      List.length_cons, Nat.add_comm]

/-- What is cut off only with more lines behind goes over the lines. -/
theorem prefix_of_cut? {p : Text.Line → Bool} {ls more inner rest : List Text.Line} {closer : Text.Line}
    (hnone : cut? p ls = none) (h : cut? p (ls ++ more) = some (inner, closer, rest)) : ls <+: inner := by
  rcases List.append_eq_append_iff.1 (eq_append_of_cut? h) with ⟨mid, hmid, -⟩ | ⟨mid, hmid, heq⟩
  · exact ⟨mid, hmid.symm⟩
  · cases mid with
    | nil => exact ⟨[], by rw [hmid, List.append_nil, List.append_nil]⟩
    | cons c mid =>
      have hcloser : closer ∈ ls := by
        rw [hmid, (List.cons.inj heq).1]
        simp
      exact absurd (cut?_spec h).1 (cut?_eq_none_iff.1 hnone closer hcloser)

/-- A doc string that is closed behind the lines goes over them, and they hold no keyword of a block. -/
theorem line_le_of_staysOpen {loc : Location} {afterBlank : Bool} {l : Text.Line} {ls more : List Text.Line}
    {t : Token} (hls : ∀ l' ∈ l :: ls, l'.IsWhole) (hopen : StaysOpen l ls) (ht : t.kind.isBlock)
    (hmem : .token t ∈ lines d loc afterBlank (l :: (ls ++ more)))
    (h : Terminated (lines d loc afterBlank (l :: (ls ++ more)))) :
    loc.line + (ls.length + 1) ≤ t.location.line := by
  have hbody := (hls l List.mem_cons_self).1
  obtain ⟨f, hfence, hnone⟩ := hopen
  rw [lines] at hmem h
  -- A doc string that is never closed would leave a fault.
  cases hclosed : cut? (fun l => f.delimiter.closes l.body) (ls ++ more) with
  | none =>
    exact absurd (h.of_subset (List.subset_append_left _ _))
      (not_terminated_of_staysOpen ⟨f, hfence, hclosed⟩)
  | some found =>
    obtain ⟨inner, closer, rest⟩ := found
    obtain ⟨mid, rfl⟩ := prefix_of_cut? hnone hclosed
    -- The first line opens a doc string, so the keyword comes from behind what it takes.
    have hresults : .token t ∉ (line d loc afterBlank l (ls ++ more)).results := by
      intro hmem
      rw [(fence?_eq_none_of_block hbody ht hmem).1] at hfence
      simp at hfence
    have hlater := le_line_of_mem_lines ((List.mem_append.1 hmem).resolve_left hresults)
    have htaken : (line d loc afterBlank l (ls ++ more)).taken = ls ++ mid ++ [closer] := by
      unfold line
      rw [hfence]
      dsimp only
      rw [hclosed]
    have hcount : (l :: ls).length ≤
        (l.chars ++ (ls ++ mid ++ [closer]).flatMap Text.Line.chars).count '\n' := by
      rw [List.append_assoc, List.flatMap_append, ← List.append_assoc, ← List.flatMap_cons,
        List.count_append, count_chars hls]
      exact Nat.le_add_right _ _
    rw [htaken, advance, Location.line_past] at hlater
    rw [List.length_cons] at hcount
    change _ ≤ t.location.line at hlater
    omega

/-- Where the last of some lines is read as the header of a block, they leave no doc string open,
unless what follows them does so. -/
theorem terminated_of_block {loc : Location} {afterBlank : Bool} {ls more : List Text.Line} {t : Token}
    (hls : ∀ l ∈ ls, l.IsWhole) (ht : t.kind.isBlock) (hline : t.location.line + 1 = loc.line + ls.length)
    (hmem : .token t ∈ lines d loc afterBlank (ls ++ more))
    (h : Terminated (lines d loc afterBlank (ls ++ more))) : Terminated (lines d loc afterBlank ls) := by
  fun_induction lines d loc afterBlank ls with
  | case1 => simp [Terminated]
  | case2 loc afterBlank l ls step fewer ih =>
    have hbody := (hls l List.mem_cons_self).1
    have hsplit : step.taken ++ step.rest = ls := line_taken_append_rest d loc afterBlank l ls
    rw [List.length_cons] at hline
    -- Either the first line opens a doc string over all the others, or it is read the same without `more`.
    by_cases hopen : StaysOpen l ls
    · have hlater := line_le_of_staysOpen hls hopen ht hmem h
      omega
    · rw [List.cons_append, lines, line_append fun hstays => absurd hstays hopen] at hmem h
      dsimp only at hmem h
      have htaken : ∀ l' ∈ l :: step.taken, l'.IsWhole := by
        intro l' hl'
        apply hls
        rw [← hsplit, ← List.cons_append]
        exact List.mem_append_left _ hl'
      have hlength : ls.length = step.taken.length + step.rest.length := by
        rw [← hsplit, List.length_append]
      have hadvance : (advance loc l step.taken).line = loc.line + (step.taken.length + 1) := by
        rw [advance, Location.line_past, ← List.flatMap_cons, count_chars htaken, List.length_cons]
      have hrest : Terminated (lines d (advance loc l step.taken) true step.rest) := by
        rcases List.mem_append.1 hmem with hmem | hmem
        · have hfirst := (fence?_eq_none_of_block hbody ht hmem).2
          have hnil : step.rest = [] := List.length_eq_zero_iff.1 (by omega)
          rw [hnil, lines]
          simp [Terminated]
        · refine ih (fun l' hl' => hls l' ?_) (by omega) hmem (h.of_subset (List.subset_append_right _ _))
          rw [← hsplit]
          exact List.mem_cons_of_mem l (List.mem_append_right _ hl')
      intro e he
      rcases List.mem_append.1 he with he | he
      · exact h e (List.mem_append_left _ he)
      · exact hrest e he

/-! ## More text -/

end Scan

def Location.behind (before : List Char) : Location → Location :=
  moved (before.count '\n') (Text.byteLength before)

namespace Scan

theorem opening_append {as : List Char} (h : as ≠ []) (bs : List Char) :
    opening (as ++ bs) = ((opening as).1, (opening as).2.1, (opening as).2.2 ++ bs) := by
  cases as with
  | nil => exact absurd rfl h
  | cons a as =>
    unfold opening
    by_cases ha : a = byteOrderMark
    · simp [ha]
    · simp [ha]

theorem opening_of_head?_ne {cs : List Char} (h : cs.head? ≠ some byteOrderMark) :
    opening cs = (.start, true, cs) := by
  cases cs with
  | nil => rfl
  | cons c cs =>
    exact if_neg (by simpa using h)

theorem all_eq (d : Dialect) (source : String) : all d source =
    lines d (opening source.toList).1 (opening source.toList).2.1
      (Text.lines (opening source.toList).2.2) := rfl

theorem all_append {source more : String} (hne : source.toList ≠ [])
    (h : (opening source.toList).2.2 = [] ∨ (opening source.toList).2.2.getLast? = some '\n') :
    all d (source ++ more) = lines d (opening source.toList).1 (opening source.toList).2.1
      (Text.lines (opening source.toList).2.2 ++ Text.lines more.toList) := by
  rw [all_eq, String.toList_append, opening_append hne]
  dsimp only
  rw [Text.lines_append h]

theorem getLast?_opening {cs : List Char} (h : cs.getLast? = some '\n') :
    (opening cs).2.2.getLast? = some '\n' := by
  obtain ⟨mark, hmark, hsource, -⟩ := Location.opening_spec cs
  rw [hsource] at h
  obtain rfl | ⟨rfl, -⟩ := hmark
  · rw [List.getLast?_append] at h
    cases hrest : (opening cs).2.2.getLast? with
    | none =>
      rw [hrest] at h
      exact absurd h (by decide)
    | some c => rwa [hrest] at h
  · exact h

/-- The end of a text of whole lines is the start of what follows it. -/
theorem past_opening {cs : List Char} (h : cs.getLast? = some '\n') :
    (opening cs).1.past (opening cs).2.2 = Location.start.behind cs := by
  obtain ⟨mark, hmark, hsource, hopening⟩ := Location.opening_spec cs
  obtain ⟨before, line, hcut, -, hline, hpast⟩ :=
    Location.exists_past_eq (Text.byteLength mark) (opening cs).2.2
  have hnil : line = [] := by
    have hlast := getLast?_opening h
    rcases List.eq_nil_or_concat line with hnil | ⟨ds, d, rfl⟩
    · exact hnil
    · rw [hcut] at hlast
      exact absurd (by simpa using hlast) fun hd : d = '\n' => hline (by simp [hd])
  have hcount : mark.count '\n' = 0 := by
    obtain rfl | ⟨rfl, -⟩ := hmark <;> decide
  subst hnil
  rw [List.append_nil] at hcut hpast
  rw [hopening, hpast, ← hcut]
  conv_rhs => rw [hsource]
  simp [Location.behind, Location.moved, Location.start, hcount]

/-- A source of whole lines ends with a line end. -/
theorem exists_all_eq {source : String} (h : source.toList.getLast? = some '\n') :
    ∃ xs n finish, all d source = xs ++ [.token n, .token finish] ∧ n.kind = .newline := by
  have hrest := getLast?_opening h
  rw [all_eq]
  refine exists_results_lines ?_ fun l => Text.isWhole_of_mem_lines hrest
  intro hnil
  rw [Text.lines_eq_nil_iff.1 hnil] at hrest
  simp at hrest

theorem exists_all_append {source : String} (hlast : source.toList.getLast? = some '\n')
    (h : Terminated (all d source)) :
    ∃ xs finish, all d source = xs ++ [.token finish] ∧ finish.kind = .eof ∧
      ∀ more : String, all d (source ++ more) =
        xs ++ lines d (Location.start.behind source.toList) true (Text.lines more.toList) := by
  have hrest := getLast?_opening hlast
  have hne : source.toList ≠ [] := fun hnil => by simp [hnil] at hlast
  have hstart : Text.lines (opening source.toList).2.2 ≠ [] := by
    intro hnil
    rw [Text.lines_eq_nil_iff.1 hnil] at hrest
    simp at hrest
  rw [all_eq] at h
  obtain ⟨xs, finish, hfinish, hlines, hmore⟩ := exists_lines_append (Or.inl hstart) h
  rw [Text.flatMap_chars_lines, past_opening hlast] at hfinish
  refine ⟨xs, _, hlines, rfl, fun more => ?_⟩
  rw [all_append hne (Or.inr hrest), hmore, hfinish]

/-- Text behind another is scanned as it is on its own, with its locations behind the other. -/
theorem lines_behind (before : List Char) {source : String}
    (h : source.toList.head? ≠ some byteOrderMark) :
    lines d (Location.start.behind before) true (Text.lines source.toList) =
      (all d source).map (Scanned.moved (before.count '\n') (Text.byteLength before)) := by
  unfold all
  rw [opening_of_head?_ne h]
  exact lines_moved _ _ d .start true _

theorem terminated_all_iff {source : String} : Terminated (all d source) ↔
    ∀ e ∈ lexicalErrors d source, e.fault ≠ .unterminatedDocString := by
  constructor
  · intro h e he
    exact h e (Scanned.mem_errors_iff.1 he)
  · intro h e he
    exact h e (Scanned.mem_errors_iff.2 he)

/-- Where the last line of a text is read as the header of a block, more text changes nothing before. -/
theorem terminated_all_of_block {source more : String} (hlast : source.toList.getLast? = some '\n')
    {t : Token} (ht : t.kind.isBlock) (hline : t.location.line = source.toList.count '\n')
    (hmem : t ∈ tokens d (source ++ more)) (h : Terminated (all d (source ++ more))) :
    Terminated (all d source) := by
  have hrest := getLast?_opening hlast
  have hne : source.toList ≠ [] := fun hnil => by simp [hnil] at hlast
  have hwhole : ∀ l ∈ Text.lines (opening source.toList).2.2, l.IsWhole :=
    fun l => Text.isWhole_of_mem_lines hrest
  have hstart := congrArg Location.line (past_opening hlast)
  rw [Location.line_past] at hstart
  have hlength := count_chars hwhole
  rw [Text.flatMap_chars_lines] at hlength
  have hx := Scanned.mem_tokens_iff.1 hmem
  rw [all_append hne (Or.inr hrest)] at hx h
  rw [all_eq d source]
  refine terminated_of_block hwhole ht ?_ hx h
  rw [← hlength, hstart, hline]
  exact Nat.add_comm _ 1

/-- What more text yields after a source of whole lines, whose last token is its end. -/
theorem exists_tokens_append {d : Dialect} {source : String} (hlast : source.toList.getLast? = some '\n')
    (h : Terminated (all d source)) :
    ∃ ts finish, tokens d source = ts ++ [finish] ∧ finish.kind = .eof ∧ ∀ more : String,
      let behind := lines d (Location.start.behind source.toList) true (Text.lines more.toList)
      tokens d (source ++ more) = ts ++ behind.filterMap Scanned.token? ∧
        lexicalErrors d (source ++ more) = lexicalErrors d source ++ behind.filterMap Scanned.error? := by
  obtain ⟨xs, finish, hall, hkind, hmore⟩ := exists_all_append hlast h
  refine ⟨xs.filterMap Scanned.token?, finish, tokens_of_all_eq hall, hkind, fun more => ⟨?_, ?_⟩⟩
  · rw [tokens, hmore, List.filterMap_append]
  · rw [lexicalErrors_of_all_eq hall, lexicalErrors, hmore, List.filterMap_append]

end Scan

/-- A source of whole lines that leaves no doc string open is scanned in front of more text as it is on its
own, and the text behind it is scanned as it is on its own, with the lines and bytes of the source counted
in.  Columns are the same. -/
theorem tokens_of_append (d : Dialect) (a b : String) (hlast : a.toList.getLast? = some '\n')
    (hclosed : ∀ e ∈ lexicalErrors d a, e.fault ≠ .unterminatedDocString)
    (hunmarked : b.toList.head? ≠ some Scan.byteOrderMark) :
    ∃ ts finish, tokens d a = ts ++ [finish] ∧ finish.kind = .eof ∧
      tokens d (a ++ b) =
        ts ++ (tokens d b).map (Token.moved (a.toList.count '\n') (Text.byteLength a.toList)) ∧
      lexicalErrors d (a ++ b) = lexicalErrors d a ++
        (lexicalErrors d b).map (LexicalError.moved (a.toList.count '\n') (Text.byteLength a.toList)) := by
  obtain ⟨ts, finish, htokens, hkind, hmore⟩ :=
    Scan.exists_tokens_append hlast (Scan.terminated_all_iff.2 hclosed)
  obtain ⟨htokens', herrors'⟩ := hmore b
  -- Behind a line feed the text starts a line after a blank, as it does on its own.
  have hbehind := Scan.lines_behind (d := d) a.toList hunmarked
  rw [hbehind, Scanned.token?_moved] at htokens'
  rw [hbehind, Scanned.error?_moved] at herrors'
  exact ⟨ts, finish, htokens, hkind, htokens', herrors'⟩

set_option maxRecDepth 4000 in
/-- Tags and a closed doc string in front of a quote, with a fault on either side. -/
theorem tokens_of_append_of_doc_string :
    "@é\n\"\"\"\n@t\n\"\"\"\n@t\n".toList.getLast? = some '\n' ∧
      lexicalErrors .english "@é\n\"\"\"\n@t\n\"\"\"\n@t\n" = [⟨.missingTagName, ⟨1, 1, 0⟩⟩] ∧
      lexicalErrors .english "'q' \"@t" = [⟨.unterminatedString, ⟨1, 5, 4⟩⟩] ∧
      ∃ ts finish, tokens .english "@é\n\"\"\"\n@t\n\"\"\"\n@t\n" = ts ++ [finish] ∧ finish.kind = .eof ∧
        tokens .english ("@é\n\"\"\"\n@t\n\"\"\"\n@t\n" ++ "'q' \"@t") =
          ts ++ (tokens .english "'q' \"@t").map (Token.moved 5 18) ∧
        lexicalErrors .english ("@é\n\"\"\"\n@t\n\"\"\"\n@t\n" ++ "'q' \"@t") =
          [⟨.missingTagName, ⟨1, 1, 0⟩⟩, ⟨.unterminatedString, ⟨6, 5, 22⟩⟩] := by
  have herrors : lexicalErrors .english "@é\n\"\"\"\n@t\n\"\"\"\n@t\n" = [⟨.missingTagName, ⟨1, 1, 0⟩⟩] := by
    cbv
  have hlater : lexicalErrors .english "'q' \"@t" = [⟨.unterminatedString, ⟨1, 5, 4⟩⟩] := by cbv
  have hclosed : ∀ e ∈ lexicalErrors .english "@é\n\"\"\"\n@t\n\"\"\"\n@t\n",
      e.fault ≠ .unterminatedDocString := by
    rw [herrors]
    decide
  obtain ⟨ts, finish, htokens, hkind, htokens', herrors'⟩ :=
    tokens_of_append .english "@é\n\"\"\"\n@t\n\"\"\"\n@t\n" "'q' \"@t" (by decide) hclosed (by decide)
  rw [herrors, hlater] at herrors'
  exact ⟨by decide, herrors, hlater, ts, finish, htokens, hkind, htokens', herrors'⟩

end Gherkin
