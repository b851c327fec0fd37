import Gherkin.Proofs.Pattern.Segments
import Gherkin.Proofs.Tag.Rendering

/-!
# The front of an expression

A text starts with some symbols, and something stands behind them: a further symbol, the end of the text,
or characters that are no symbol.  The symbol reader reads the same symbols off the front of a text, each
at its byte offset, and stops where something else stands.
-/

namespace Gherkin.Tag

/-! ## Symbols at the front of a text -/

theorem Starts.trans {cs mid rest : List Char} {ss more : List Symbol} (h : Starts cs ss mid)
    (hmore : Starts mid more rest) : Starts cs (ss ++ more) rest := by
  induction h with
  | nil => exact hmore
  | blank hc _ ih => exact .blank hc (ih hmore)
  | opening _ ih => exact .opening (ih hmore)
  | closing _ ih => exact .closing (ih hmore)
  | tag hne hname hstop _ ih => exact .tag hne hname hstop (ih hmore)
  | operator hword halpha hstop _ ih => exact .operator hword halpha hstop (ih hmore)

theorem exists_starts_of_written_cons {cs : List Char} {s : Symbol} {more : List Symbol}
    (h : Written cs (s :: more)) : ∃ rest, Starts cs [s] rest ∧ Written rest more := by
  generalize hss : s :: more = ss at h
  induction h with
  | nil => cases hss
  | blank hc _ ih =>
    obtain ⟨rest, hstarts, hrest⟩ := ih hss
    exact ⟨rest, .blank hc hstarts, hrest⟩
  | opening hrest =>
    obtain ⟨rfl, rfl⟩ := List.cons.inj hss
    exact ⟨_, .opening (.nil _), hrest⟩
  | closing hrest =>
    obtain ⟨rfl, rfl⟩ := List.cons.inj hss
    exact ⟨_, .closing (.nil _), hrest⟩
  | tag hne hname hstop hrest =>
    obtain ⟨rfl, rfl⟩ := List.cons.inj hss
    exact ⟨_, .tag hne hname hstop (.nil _), hrest⟩
  | operator hword halpha hstop hrest =>
    obtain ⟨rfl, rfl⟩ := List.cons.inj hss
    exact ⟨_, .operator hword halpha hstop (.nil _), hrest⟩

theorem exists_starts_of_written {cs : List Char} {ss more : List Symbol}
    (h : Written cs (ss ++ more)) : ∃ rest, Starts cs ss rest ∧ Written rest more := by
  induction ss generalizing cs with
  | nil => exact ⟨cs, .nil cs, h⟩
  | cons s ss ih =>
    obtain ⟨mid, hfirst, hmid⟩ := exists_starts_of_written_cons h
    obtain ⟨rest, hothers, hrest⟩ := ih hmid
    exact ⟨rest, hfirst.trans hothers, hrest⟩

theorem Starts.isTag {cs rest : List Char} {ss : List Symbol} (h : Starts cs ss rest) :
    ∀ s, .tag s ∈ ss → IsTag s := by
  induction h with
  | nil => simp
  | blank _ _ ih => exact ih
  | opening _ ih | closing _ ih | operator _ _ _ _ ih => simpa using ih
  | @tag name _ _ _ hne hname _ _ ih =>
    intro s hs
    rcases List.mem_cons.1 hs with heq | hs
    · rw [Symbol.tag.inj heq]
      exact ⟨name, String.toList_ofList, hne, hname⟩
    · exact ih s hs

/-! ## What stands behind the symbols -/

inductive Found where
  | symbol (s : Symbol)
  | finish
  /-- A character that neither is a symbol nor starts one. -/
  | character (c : Char)
  /-- A word that is no operator. -/
  | word (letters : List Char)
  /-- An `@` without a name. -/
  | nameless

namespace Found

def Begins : Found → List Char → Prop
  | .symbol s, cs => (∃ rest, Starts cs [s] rest) ∧ ∀ c ∈ cs.head?, ¬ Text.isBlank c
  | .finish, cs => cs = []
  | .character c, cs => (∃ rest, cs = c :: rest) ∧ ¬ Text.isBlank c ∧ c ∉ ['(', ')', '@'] ∧ ¬ c.isAlpha
  | .word letters, cs => letters ≠ [] ∧ (∀ c ∈ letters, c.isAlpha) ∧
      (∀ op : Operator, letters.map Char.toLower ≠ op.name.toList) ∧
      ∃ rest, cs = letters ++ rest ∧ ∀ c ∈ rest.head?, ¬ c.isAlpha
  | .nameless, cs => ∃ rest, cs = '@' :: rest ∧ ∀ c ∈ rest.head?, ¬ Lexeme.isTagCharacter c

/-- How far behind the symbols the place is that lacks one: a name is missing behind its `@`. -/
def lead : Found → Nat
  | .nameless => 1
  | _ => 0

end Found

theorem operator?_eq_none {letters : List Char}
    (h : ∀ op : Operator, letters.map Char.toLower ≠ op.name.toList) : operator? letters = none := by
  cases hop : operator? letters with
  | none => rfl
  | some op => exact absurd (operator?_eq_some_iff.1 hop) (h op)

/-! ## The symbol reader -/

def Found.Reads (offset : Nat) (cs : List Char) (read : Symbols) : Found → Prop
  | .symbol s => ∃ front rest, cs = front ++ rest ∧ Starts cs [s] rest ∧
      read = (symbols (offset + Text.byteLength front) rest).cons offset s
  | found => read.placed = [] ∧ read.stop = offset + found.lead ∧
      (read.fault = none ↔ found = .finish) ∧ read.fault ≠ some .missingClosing

theorem Found.Begins.reads {found : Found} {cs : List Char} (h : found.Begins cs) (offset : Nat) :
    found.Reads offset cs (symbols offset cs) := by
  cases found with
  | symbol s =>
    obtain ⟨⟨rest, hstarts⟩, hblank⟩ := h
    -- What starts there reads the one symbol, so the cases are the rules of `Starts`; a blank is none of them.
    generalize hss : [s] = ss at hstarts
    cases hstarts with
    | nil => simp at hss
    | blank hc => exact absurd hc (hblank _ rfl)
    | opening =>
      obtain rfl : s = _ := (List.cons.inj hss).1
      refine ⟨['('], _, rfl, .opening (.nil _), ?_⟩
      rw [symbols, if_neg (by decide), if_pos rfl]
      rfl
    | closing =>
      obtain rfl : s = _ := (List.cons.inj hss).1
      refine ⟨[')'], _, rfl, .closing (.nil _), ?_⟩
      rw [symbols, if_neg (by decide), if_neg (by decide), if_pos rfl]
      rfl
    | @tag name _ _ _ hne hname hstop =>
      obtain rfl : s = _ := (List.cons.inj hss).1
      refine ⟨'@' :: name, _, rfl, .tag hne hname hstop (.nil _), ?_⟩
      have hlength : Text.byteLength ('@' :: name) = 1 + name.length := by
        rw [Text.byteLength_cons, Pattern.byteLength_of_name hname]
        rfl
      obtain ⟨htake, hdrop⟩ := span_append hname hstop
      rw [symbols, if_neg (by decide), if_neg (by decide), if_neg (by decide), if_pos rfl]
      dsimp only
      rw [htake, hdrop, if_neg (by simpa using hne), hlength, ← Nat.add_assoc]
    | @operator op word _ _ _ hword halpha hstop =>
      obtain rfl : s = _ := (List.cons.inj hss).1
      refine ⟨word, _, rfl, .operator hword halpha hstop (.nil _), ?_⟩
      cases word with
      | nil => cases op <;> simp [Operator.name] at hword
      | cons c word =>
        have hc : c.isAlpha := halpha c List.mem_cons_self
        have hlength : Text.byteLength (c :: word) = (c :: word).length :=
          Pattern.byteLength_of_name fun d hd => isTagCharacter_of_isAlpha (halpha d hd)
        obtain ⟨htake, hdrop⟩ := span_append (fun d hd => halpha d (List.mem_cons_of_mem c hd)) hstop
        rw [List.cons_append, symbols, if_neg (hblank c rfl), if_neg (by rintro rfl; simp at hc),
          if_neg (by rintro rfl; simp at hc), if_neg (by rintro rfl; simp at hc), if_pos hc]
        dsimp only
        rw [htake, hdrop, operator?_eq_some_iff.2 hword, hlength]
  | finish =>
    obtain rfl : cs = [] := h
    rw [symbols]
    exact ⟨rfl, rfl, by simp, by simp⟩
  | character c =>
    -- Here and in the cases below the reader stops: only the branch that it takes has to be found.
    obtain ⟨⟨rest, rfl⟩, hblank, hsymbol, hletter⟩ := h
    simp only [List.mem_cons, List.not_mem_nil, or_false, not_or] at hsymbol
    rw [symbols, if_neg hblank, if_neg hsymbol.1, if_neg hsymbol.2.1, if_neg hsymbol.2.2,
      if_neg hletter]
    exact ⟨rfl, rfl, by simp, by simp⟩
  | word letters =>
    obtain ⟨hne, halpha, hop, rest, rfl, hstop⟩ := h
    cases letters with
    | nil => exact absurd rfl hne
    | cons c word =>
      have hc : c.isAlpha := halpha c List.mem_cons_self
      have hblank : ¬ Text.isBlank c := not_isBlank_of_isTagCharacter (isTagCharacter_of_isAlpha hc)
      obtain ⟨htake, -⟩ := span_append (fun d hd => halpha d (List.mem_cons_of_mem c hd)) hstop
      rw [List.cons_append, symbols, if_neg hblank, if_neg (by rintro rfl; simp at hc),
        if_neg (by rintro rfl; simp at hc), if_neg (by rintro rfl; simp at hc), if_pos hc]
      dsimp only
      rw [htake, operator?_eq_none hop]
      exact ⟨rfl, rfl, by simp, by simp⟩
  | nameless =>
    obtain ⟨rest, rfl, hstop⟩ := h
    have hname : rest.takeWhile Lexeme.isTagCharacter = [] := by
      cases rest with
      | nil => rfl
      | cons c rest => exact List.takeWhile_cons_of_neg (hstop c rfl)
    rw [symbols, if_neg (by decide), if_neg (by decide), if_neg (by decide), if_pos rfl]
    dsimp only
    rw [hname, if_pos List.isEmpty_nil]
    exact ⟨rfl, rfl, by simp, by simp⟩

/-- Something is found wherever no blank stands. -/
theorem exists_begins {cs : List Char} (h : ∀ c ∈ cs.head?, ¬ Text.isBlank c) :
    ∃ found : Found, found.Begins cs := by
  cases cs with
  | nil => exact ⟨.finish, rfl⟩
  | cons c cs =>
    -- The cases follow the reader's own order of checks.
    by_cases hopening : c = '('
    · subst hopening
      exact ⟨.symbol .opening, ⟨cs, .opening (.nil cs)⟩, h⟩
    by_cases hclosing : c = ')'
    · subst hclosing
      exact ⟨.symbol .closing, ⟨cs, .closing (.nil cs)⟩, h⟩
    by_cases hat : c = '@'
    · subst hat
      by_cases hname : cs.takeWhile Lexeme.isTagCharacter = []
      · refine ⟨.nameless, cs, rfl, fun c hc htag => ?_⟩
        cases cs with
        | nil => simp at hc
        | cons d cs =>
          obtain rfl := Option.some.inj hc
          rw [List.takeWhile_cons_of_pos htag] at hname
          simp at hname
      · have htag := Starts.tag hname (fun c => List.mem_takeWhile_imp) not_of_mem_head?_dropWhile
          (.nil (cs.dropWhile Lexeme.isTagCharacter))
        rw [List.takeWhile_append_dropWhile] at htag
        exact ⟨.symbol _, ⟨_, htag⟩, h⟩
    by_cases hc : c.isAlpha
    · have hword : ∀ d ∈ c :: cs.takeWhile Char.isAlpha, d.isAlpha := by
        intro d hd
        rcases List.mem_cons.1 hd with rfl | hd
        · exact hc
        · exact List.mem_takeWhile_imp hd
      have hsplit : c :: cs = c :: cs.takeWhile Char.isAlpha ++ cs.dropWhile Char.isAlpha := by
        rw [List.cons_append, List.takeWhile_append_dropWhile]
      cases hop : operator? (c :: cs.takeWhile Char.isAlpha) with
      | some op =>
        have hstarts := Starts.operator (operator?_eq_some_iff.1 hop) hword not_of_mem_head?_dropWhile
          (.nil (cs.dropWhile Char.isAlpha))
        rw [← hsplit] at hstarts
        exact ⟨.symbol (.operator op), ⟨_, hstarts⟩, h⟩
      | none =>
        -- Letters that name no operator are a word, up to the first character that is no letter.
        refine ⟨.word (c :: cs.takeWhile Char.isAlpha), by simp, hword, fun op heq => ?_, _, hsplit,
          not_of_mem_head?_dropWhile⟩
        rw [operator?_eq_some_iff.2 heq] at hop
        simp at hop
    · exact ⟨.character c, ⟨cs, rfl⟩, h c rfl, by simp [hopening, hclosing, hat], hc⟩

theorem exists_symbols_eq (offset : Nat) (cs : List Char) : ∃ front rest, cs = front ++ rest ∧
    Starts cs [] rest ∧ (∀ c ∈ rest.head?, ¬ Text.isBlank c) ∧
    symbols offset cs = symbols (offset + Text.byteLength front) rest := by
  induction cs generalizing offset with
  | nil => exact ⟨[], [], rfl, .nil [], by simp, rfl⟩
  | cons c cs ih =>
    by_cases hc : Text.isBlank c
    · obtain ⟨front, rest, rfl, hstarts, hrest, hsymbols⟩ := ih (offset + c.utf8Size)
      refine ⟨c :: front, rest, rfl, .blank hc hstarts, hrest, ?_⟩
      rw [symbols, if_pos hc, hsymbols, Text.byteLength_cons, Nat.add_assoc]
    · exact ⟨[], c :: cs, rfl, .nil _, by simpa using hc, rfl⟩

/-- Behind some of the symbols that it reads, the reader goes on where the text goes on. -/
theorem exists_starts_of_placed {offset : Nat} {cs : List Char} {xs ys : List (Nat × Symbol)}
    (h : (symbols offset cs).placed = xs ++ ys) : ∃ front rest, cs = front ++ rest ∧
      Starts cs (xs.map Prod.snd) rest ∧ (∀ c ∈ rest.head?, ¬ Text.isBlank c) ∧
      symbols (offset + Text.byteLength front) rest = { symbols offset cs with placed := ys } := by
  -- One symbol at a time: the blanks before it, the symbol, and the rest by induction.
  induction xs generalizing offset cs with
  | nil =>
    obtain ⟨front, rest, hcs, hstarts, hrest, hsymbols⟩ := exists_symbols_eq offset cs
    refine ⟨front, rest, hcs, hstarts, hrest, ?_⟩
    rw [← hsymbols, ← show (symbols offset cs).placed = ys from h]
  | cons x xs ih =>
    obtain ⟨blanks, mid, rfl, hblanks, hmid, hsymbols⟩ := exists_symbols_eq offset cs
    obtain ⟨found, hfound⟩ := exists_begins hmid
    have hreads := hfound.reads (offset + Text.byteLength blanks)
    rw [hsymbols] at h ⊢
    cases found with
    | symbol s =>
      obtain ⟨written, rest, rfl, hwritten, hsymbol⟩ := hreads
      rw [hsymbol] at h ⊢
      have hplaced := (List.cons.inj h).2
      obtain ⟨front, last, rfl, hstarts, hlast, hrest⟩ := ih hplaced
      refine ⟨blanks ++ written ++ front, last, by simp, ?_, hlast, ?_⟩
      · rw [← (List.cons.inj h).1]
        exact hblanks.trans (hwritten.trans hstarts)
      · rw [Text.byteLength_append, Text.byteLength_append, ← Nat.add_assoc, ← Nat.add_assoc, hrest]
        rfl
    | finish | character | word | nameless =>
      -- A reader that stops here has placed nothing, so `x` cannot be ahead.
      rw [hreads.1] at h
      simp at h

end Gherkin.Tag
