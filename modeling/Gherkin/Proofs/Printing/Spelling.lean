import Gherkin.Proofs.Printing.Entries
import Gherkin.Proofs.Printing.Lines
import Gherkin.Proofs.Printing.Scanning

/-!
# Lines that spell entries

The tokens of printed lines are those of the entries that the lines were printed for.  What follows the lines
is left open, so that the lines of a tree are put together from those of its parts.
-/

namespace Gherkin

theorem Reader.live_append {ts : List Token} (h : ∀ t ∈ ts, t.kind ≠ .eof) (us : List Token) :
    live (ts ++ us) = ts ++ live us :=
  List.takeWhile_append_of_pos (by simpa using h)

namespace Printed

def tokens (loc : Location) (ls : Printed) : List Token :=
  Reader.live ((Scan.lines .english loc true (ls.map line)).filterMap Scanned.token?)

variable {source : List Char}

theorem isGap_of_mem_replicate {n : Nat} : ∀ c ∈ List.replicate n ' ', Scan.isGap c := by
  intro c hc
  rw [List.eq_of_mem_replicate hc]
  rfl

-- A line that opens no doc string gives the tokens of its body and a line end.
theorem exists_tokens_cons {loc : Location} {l : Nat × List Char} {ls : Printed}
    (hat : loc.At source (text (l :: ls)).toList) (hl : OnOneLine l.2)
    (hfence : Scan.fence? (line l) = none) :
    ∃ n, n.kind = .newline ∧ tokens loc (l :: ls) =
      (Scan.ofBody .english .first true loc (line l).body).filterMap Scanned.token? ++
        n :: tokens (loc.past (text [l]).toList) ls := by
  have hline : Scan.line .english loc true (line l) (ls.map line) =
      { results := Scan.ofBody .english .first true loc (line l).body ++
          Scan.ofEnding (loc.past (line l).body) .lf
        rest := ls.map line } := by
    unfold Scan.line
    rw [hfence]
    rfl
  -- The layout of the body says that none of its tokens ends the source.
  have hlaid : Laid (Scan.opensAs .english source True) Place.first.lineState
      ((Scan.ofBody .english .first true loc (line l).body).filterMap Scanned.token? ++ []) := by
    rw [toList_text_cons] at hat
    exact Scan.laid_ofBody (fun _ => Dialect.isKeyword_of_mem_english) hat (onOneLine_line hl).1
      (Or.inr ⟨_, Or.inl rfl⟩) (fun _ => Scan.opening?_of_fence?_eq_none hfence) (fun _ _ _ => trivial)
      fun _ => trivial
  rw [List.append_nil] at hlaid
  let lineEnd : Token := ⟨.newline, "\n", loc.past (line l).body,
    ((loc.past (line l).body).past ['\n']).offset, none⟩
  have hadvance : Scan.advance loc (line l) [] = loc.past (text [l]).toList := by
    rw [toList_text_cons]
    exact congrArg loc.past (List.append_nil _)
  refine ⟨lineEnd, rfl, ?_⟩
  unfold tokens
  rw [List.map_cons, Scan.lines, hline]
  dsimp only
  rw [hadvance, List.filterMap_append, List.filterMap_append, List.append_assoc,
    Reader.live_append hlaid.ne_eof]
  congr 1

theorem column_past_text {loc : Location} (h : loc.column = 1) (ls : Printed) :
    (loc.past (text ls).toList).column = 1 := by
  induction ls generalizing loc with
  | nil => exact h
  | cons l ls ih =>
    rw [toList_text_cons, Location.past_append]
    exact ih rfl

theorem at_past_text {loc : Location} {ls rest : Printed}
    (h : loc.At source (text (ls ++ rest)).toList) :
    (loc.past (text ls).toList).At source (text rest).toList := by
  rw [toList_text_append] at h
  exact h.past

/-! ## Tokens and entries -/

theorem spells_cons {e : Entry} {es : List Entry} {t : Token} {ts : List Token}
    (hheads : e.Heads source t ts) (h : Spells source es (e.leave source ts)) :
    Spells source (e :: es) (t :: ts) := by
  have hgap : Reader.isGap t = false := by
    cases e with
    | tag | block | step | row | docString => simp [Reader.isGap, hheads.1]
  exact ⟨t, ts, List.dropWhile_cons_of_neg (by simp [hgap]), hheads, h⟩

theorem spells_cons_newline {n : Token} (hn : n.kind = .newline) {es : List Entry} {ts : List Token} :
    Spells source es (n :: ts) ↔ Spells source es ts := by
  apply Reader.spells_congr
  exact List.dropWhile_cons_of_pos (by simp [Reader.isGap, hn])

theorem skipLine_append_newline {words : List Token} (hwords : ∀ w ∈ words, w.kind.isInline) {n : Token}
    (hn : n.kind = .newline) (ts : List Token) : Reader.skipLine (words ++ n :: ts) = n :: ts := by
  have hall : ∀ w ∈ words, decide (w.kind ≠ .newline) = true := by
    intro w hw
    apply decide_eq_true
    intro hkind
    have hinline := hwords w hw
    simp [hkind, TokenKind.isInline] at hinline
  unfold Reader.skipLine
  rw [List.dropWhile_append_of_pos hall, List.dropWhile_cons_of_neg (by simp [hn])]

/-! ## Lines and entries -/

/-- Each line is one line of the text, and whatever lines follow, the lines spell the entries. -/
structure Prints (source : List Char) (ls : Printed) (es : List Entry) : Prop where
  oneLine : ∀ l ∈ ls, OnOneLine l.2
  spells : ∀ loc rest es', loc.column = 1 → loc.At source (text (ls ++ rest)).toList →
    Spells source es' (tokens (loc.past (text ls).toList) rest) →
      Spells source (es ++ es') (tokens loc (ls ++ rest))

theorem Prints.nil : Prints source [] [] where
  oneLine := by simp
  spells _ _ _ _ _ h := h

theorem Prints.append {as bs : Printed} {es fs : List Entry} (ha : Prints source as es)
    (hb : Prints source bs fs) : Prints source (as ++ bs) (es ++ fs) where
  oneLine l hl := by
    rcases List.mem_append.1 hl with hl | hl
    · exact ha.oneLine l hl
    · exact hb.oneLine l hl
  spells loc rest es' hcolumn hat h := by
    rw [List.append_assoc] at hat ⊢
    rw [List.append_assoc]
    -- To the first lines the second ones are a part of what follows.
    apply ha.spells loc (bs ++ rest) (fs ++ es') hcolumn hat
    apply hb.spells _ rest es' (column_past_text hcolumn as) (at_past_text hat)
    rwa [← Location.past_append, ← toList_text_append]

theorem Prints.flatMap {α : Type} {xs : List α} {print : α → Printed} {entries : α → List Entry}
    (h : ∀ x ∈ xs, Prints source (print x) (entries x)) :
    Prints source (xs.flatMap print) (xs.flatMap entries) := by
  induction xs with
  | nil => exact .nil
  | cons x xs ih =>
    rw [List.flatMap_cons, List.flatMap_cons]
    exact (h x List.mem_cons_self).append (ih fun y hy => h y (List.mem_cons_of_mem x hy))

-- A line that opens no doc string, whatever tokens follow its line end.
theorem Prints.of_line {l : Nat × List Char} {es : List Entry} (hl : OnOneLine l.2)
    (hfence : Scan.fence? (line l) = none)
    (h : ∀ (loc : Location) (rest : List Char) (n : Token) (ts : List Token) (es' : List Entry),
      n.kind = .newline → loc.At source ((line l).body ++ '\n' :: rest) → Spells source es' ts →
        Spells source (es ++ es') ((Scan.ofBody .english .first true loc (line l).body).filterMap
          Scanned.token? ++ n :: ts)) : Prints source [l] es where
  oneLine m hm := by
    rw [List.mem_singleton.1 hm]
    exact hl
  spells loc rest es' _ hat hrest := by
    rw [List.singleton_append] at hat ⊢
    rcases exists_tokens_cons hat hl hfence with ⟨n, hn, htokens⟩
    rw [toList_text_cons] at hat
    rw [htokens]
    exact h loc _ n _ es' hn hat hrest

theorem prints_blank (n : Nat) : Prints source (shift n blank) [] := by
  unfold blank
  rw [shift_singleton]
  apply Prints.of_line onOneLine_nil rfl
  intro loc rest t ts es' ht hat h
  rw [body_line_nil, Scan.ofBody_nil]
  exact (spells_cons_newline ht).2 h

-- A part with the blank line before it.
theorem Prints.after_blank {n : Nat} {ls : Printed} {es : List Entry} (h : Prints source (shift n ls) es) :
    Prints source (shift n (blank ++ ls)) es := by
  rw [shift_append]
  exact (prints_blank n).append h

end Printed

end Gherkin
