import Gherkin.Proofs.Token.Coverage

/-!
# Line, column and offset

The three parts of a location are told apart by passing over characters, and each has a meaning of its
own in the source: line ends before the place, characters before it on its line, bytes before it.  Every
result of a scan is located at a place where the three agree.
-/

namespace Gherkin

namespace Location

/-- The parts of a place: before it stand the mark that may open a source, whole lines, and the beginning
of the line it is on. -/
def Marks (source : List Char) (loc : Location) : Prop :=
  ∃ mark before line after, source = mark ++ before ++ line ++ after ∧
    (mark = [Scan.byteOrderMark] ∨ mark = [] ∧ source.head? ≠ some Scan.byteOrderMark) ∧
    (before = [] ∨ before.getLast? = some '\n') ∧ '\n' ∉ line ∧
    loc.line = 1 + before.count '\n' ∧ loc.column = 1 + line.length ∧
    loc.offset = Text.byteLength (mark ++ before ++ line)

/-- What passing over characters from the start of a first line gives. -/
theorem exists_past_eq (n : Nat) (cs : List Char) : ∃ before line, cs = before ++ line ∧
    (before = [] ∨ before.getLast? = some '\n') ∧ '\n' ∉ line ∧
    (Location.mk 1 1 n).past cs =
      ⟨1 + before.count '\n', 1 + line.length, n + Text.byteLength (before ++ line)⟩ := by
  induction cs using List.reverseRecOn with
  | nil => exact ⟨[], [], rfl, Or.inl rfl, by simp, rfl⟩
  | append_singleton cs c ih =>
    obtain ⟨before, line, rfl, hbefore, hline, hpast⟩ := ih
    rw [past_append, hpast, past_cons, past_nil, next]
    by_cases hc : c = '\n'
    · refine ⟨before ++ line ++ ['\n'], [], by rw [hc, List.append_nil], Or.inr (by simp), by simp, ?_⟩
      have hcount : line.count '\n' = 0 := List.count_eq_zero.2 hline
      have hsize : '\n'.utf8Size = 1 := rfl
      rw [if_pos hc]
      simp [hcount, hsize, Nat.add_assoc]
    · refine ⟨before, line ++ [c], by simp, hbefore, ?_, ?_⟩
      · simpa [hline] using fun h => hc h.symm
      · rw [if_neg hc]
        simp [Nat.add_assoc]

theorem opening_spec (source : List Char) : ∃ mark,
    (mark = [Scan.byteOrderMark] ∨ mark = [] ∧ source.head? ≠ some Scan.byteOrderMark) ∧
      source = mark ++ (Scan.opening source).2.2 ∧
        (Scan.opening source).1 = ⟨1, 1, Text.byteLength mark⟩ := by
  unfold Scan.opening
  cases source with
  | nil => exact ⟨[], Or.inr ⟨rfl, by simp⟩, rfl, rfl⟩
  | cons c cs =>
    by_cases hc : c = Scan.byteOrderMark
    · simp only [hc, if_true]
      exact ⟨[Scan.byteOrderMark], Or.inl rfl, rfl, rfl⟩
    · simp only [if_neg hc]
      exact ⟨[], Or.inr ⟨rfl, by simpa using hc⟩, rfl, rfl⟩

theorem At.marks {source cs : List Char} {loc : Location} (h : loc.At source cs) :
    loc.Marks source := by
  obtain ⟨passed, hrest, rfl⟩ := h
  obtain ⟨mark, hmark, hsource, hopening⟩ := opening_spec source
  obtain ⟨before, line, rfl, hbefore, hline, hpast⟩ := exists_past_eq (Text.byteLength mark) passed
  rw [hrest] at hsource
  rw [hopening, hpast]
  refine ⟨mark, before, line, cs, by simpa using hsource, hmark, hbefore, hline, rfl, rfl, ?_⟩
  rw [List.append_assoc, Text.byteLength_append mark]

end Location

def Scanned.location : Scanned → Location
  | .token t => t.location
  | .error e => e.location

namespace Scan

theorem location_of_mem_ofLexeme {loc : Location} {lx : Lexeme} {x : Scanned} (h : x ∈ ofLexeme loc lx) :
    x.location = loc := by
  rcases List.mem_append.1 h with h | h
  · obtain ⟨fault, -, rfl⟩ := Option.map_eq_some_iff.1 (Option.mem_toList.1 h)
    rfl
  · obtain ⟨⟨kind, text⟩, -, rfl⟩ := Option.map_eq_some_iff.1 (Option.mem_toList.1 h)
    rfl

theorem location_of_mem_ofEnding {loc : Location} {ending : Text.LineEnd} {x : Scanned}
    (h : x ∈ ofEnding loc ending) : x.location = loc := by
  cases ending with
  | missing => simp [ofEnding] at h
  | lf | crlf =>
    obtain rfl := List.mem_singleton.1 h
    rfl

/-- Whatever a result comes from, it is located at a place of the source. -/
theorem Origin.exists_at {d : Dialect} {source : List Char} {x : Scanned} (h : Origin d source x) :
    ∃ rest, x.location.At source rest := by
  cases h with
  | lexeme hat _ _ hx =>
    rw [location_of_mem_ofLexeme hx]
    exact ⟨_, hat⟩
  | ending hat hx =>
    rw [location_of_mem_ofEnding hx]
    exact ⟨_, hat⟩
  | @docString loc l closer inner rest f hat _ hfence =>
    exact ⟨_, at_openingSpan (List.cons_append ▸ hat) hfence⟩
  | @unclosed loc l ls f x hat _ hfence hx =>
    have hlocation : x.location = loc.past f.indent := by
      obtain rfl | rfl := hx <;> rfl
    rw [hlocation]
    exact ⟨_, at_openingSpan hat hfence⟩
  | finish hat => exact ⟨[], hat⟩

end Scan

theorem marks_of_mem_tokens {d : Dialect} {source : String} {t : Token} (h : t ∈ tokens d source) :
    t.location.Marks source.toList := by
  obtain ⟨rest, hat⟩ := (origin_of_mem_tokens h).exists_at
  exact Location.At.marks hat

theorem marks_of_mem_lexicalErrors {d : Dialect} {source : String} {e : LexicalError}
    (h : e ∈ lexicalErrors d source) : e.location.Marks source.toList := by
  obtain ⟨rest, hat⟩ := (Scan.origin_of_mem_all (Scanned.mem_errors_iff.1 h)).exists_at
  exact Location.At.marks hat

/-- Tokens stand behind one another. -/
theorem pairwise_offset_tokens {d : Dialect} (hd : ∀ s ∈ d.spellings, s.kind.isKeyword)
    (source : String) :
    (tokens d source).Pairwise fun t u => t.location.offset < u.location.offset := by
  obtain ⟨mark, cs, xs, finish, -, hsource, hall, hfinish, htiles⟩ := Scan.exists_tiles_all hd source
  rw [tokens_of_all_eq hall]
  refine List.pairwise_append.2 ⟨htiles.pairwise_tokens.imp And.left, List.pairwise_singleton _ _, ?_⟩
  intro t ht u hu
  obtain rfl := List.mem_singleton.1 hu
  show t.location.offset < finish.offset
  rw [hfinish, hsource, Text.byteLength_append]
  exact (htiles.offset_bounds ht).2.1

end Gherkin
