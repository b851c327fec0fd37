import Gherkin.Proofs.Tag.Fronts

/-!
# What a rejected expression is blamed on

The reader accepts a symbol only while the symbols read so far can still be completed to an expression, and
it stops at the first thing that no expression has behind them.  The error points there, except where a
parenthesis is left open: then it points at the innermost of those.
-/

namespace Gherkin.Tag

def IsExpression (cs : List Char) : Prop := ∃ ss v, Written cs ss ∧ Derives .or ss v

/-! ## Parentheses -/

/-- Symbols in which every parenthesis has its partner. -/
inductive Balanced : List Symbol → Prop
  | nil : Balanced []
  | single {s : Symbol} : s ≠ .opening → s ≠ .closing → Balanced [s]
  | parentheses {ss : List Symbol} : Balanced ss → Balanced (.opening :: (ss ++ [.closing]))
  | append {ls rs : List Symbol} : Balanced ls → Balanced rs → Balanced (ls ++ rs)

/-- The offsets of the parentheses that are still open behind some symbols, the innermost first. -/
inductive Unclosed : List Nat → List (Nat × Symbol) → Prop
  | nil {inside : List (Nat × Symbol)} : Balanced (inside.map Prod.snd) → Unclosed [] inside
  | cons {offset : Nat} {offsets : List Nat} {outer inside : List (Nat × Symbol)} :
      Unclosed offsets outer → Balanced (inside.map Prod.snd) →
      Unclosed (offset :: offsets) (outer ++ (offset, .opening) :: inside)

theorem Unclosed.append {offsets : List Nat} {xs ys : List (Nat × Symbol)} (h : Unclosed offsets xs)
    (hys : Balanced (ys.map Prod.snd)) : Unclosed offsets (xs ++ ys) := by
  cases h with
  | nil hinside =>
    apply Unclosed.nil
    rw [List.map_append]
    exact hinside.append hys
  | cons houter hinside =>
    rw [List.append_assoc, List.cons_append]
    apply Unclosed.cons houter
    rw [List.map_append]
    exact hinside.append hys

namespace Reader

/-- What a step does to the open parentheses. -/
theorem enclosing_step {st st' : State} {offset : Nat} {s : Symbol} (h : st.step (offset, s) = .ok st') :
    (s = .opening ∧ st'.enclosing = (offset, st.frame) :: st.enclosing) ∨
      (s = .closing ∧ ∃ opened, st.enclosing = opened :: st'.enclosing) ∨
      (s ≠ .opening ∧ s ≠ .closing ∧ st'.enclosing = st.enclosing) := by
  obtain ⟨frame, awaited, enclosing⟩ := st
  -- Only the two parentheses touch `enclosing`; everything else is ruled out or leaves it.
  cases awaited with
  | operand after =>
    cases s with
    | opening =>
      rw [← Except.ok.inj h]
      exact Or.inl ⟨rfl, rfl⟩
    | tag name =>
      rw [← Except.ok.inj h]
      exact Or.inr (Or.inr ⟨by simp, by simp, rfl⟩)
    | closing => cases after <;> simp [State.step] at h
    | operator op =>
      cases op with
      | not =>
        rw [← Except.ok.inj h]
        exact Or.inr (Or.inr ⟨by simp, by simp, rfl⟩)
      | and | or => cases after <;> simp [State.step] at h
  | operator t =>
    cases s with
    | tag name | opening => cases enclosing <;> simp [State.step] at h
    | closing =>
      cases enclosing with
      | nil => simp [State.step] at h
      | cons opened enclosing =>
        rw [← Except.ok.inj h]
        exact Or.inr (Or.inl ⟨rfl, opened, rfl⟩)
    | operator op =>
      cases op with
      | and | or =>
        rw [← Except.ok.inj h]
        exact Or.inr (Or.inr ⟨by simp, by simp, rfl⟩)
      | not => cases enclosing <;> simp [State.step] at h

theorem unclosed_step {st st' : State} {xs : List (Nat × Symbol)} {x : Nat × Symbol}
    (h : Unclosed (st.enclosing.map Prod.fst) xs) (hstep : st.step x = .ok st') :
    Unclosed (st'.enclosing.map Prod.fst) (xs ++ [x]) := by
  obtain ⟨offset, s⟩ := x
  rcases enclosing_step hstep with ⟨rfl, heq⟩ | ⟨rfl, opened, heq⟩ | ⟨hopening, hclosing, heq⟩
  · rw [heq, List.map_cons]
    exact .cons h .nil
  · rw [heq, List.map_cons] at h
    -- The parenthesis that is closed is matched from now on, so it belongs to what stands around it.
    cases h with
    | cons houter hinside =>
      rw [List.append_assoc]
      apply houter.append
      simpa using hinside.parentheses
  · rw [heq]
    exact h.append (.single hopening hclosing)

theorem unclosed_run {xs : List (Nat × Symbol)} {st : State} (h : ({} : State).run xs = .ok st) :
    Unclosed (st.enclosing.map Prod.fst) xs := by
  suffices hrun : ∀ (xs seen : List (Nat × Symbol)) (st₀ : State),
      Unclosed (st₀.enclosing.map Prod.fst) seen → st₀.run xs = .ok st →
        Unclosed (st.enclosing.map Prod.fst) (seen ++ xs) from hrun xs [] {} (.nil .nil) h
  intro xs
  induction xs with
  | nil =>
    intro seen st₀ hseen hrun
    rw [← Except.ok.inj hrun, List.append_nil]
    exact hseen
  | cons x xs ih =>
    intro seen st₀ hseen hrun
    rw [State.run] at hrun
    cases hstep : st₀.step x with
    | error e => simp [hstep] at hrun
    | ok next =>
      rw [hstep] at hrun
      rw [List.append_cons]
      exact ih _ next (unclosed_step hseen hstep) hrun

/-! ## Errors -/

/-- The error is about the place, or about the innermost parenthesis that is still open. -/
def State.Blames (st : State) (place : Nat) (e : ExpressionError) : Prop :=
  (e.fault ≠ .missingClosing → e.offset = place) ∧
    (e.fault = .missingClosing → ∃ offsets, st.enclosing.map Prod.fst = e.offset :: offsets)

theorem blames_step {st : State} {x : Nat × Symbol} {e : ExpressionError} (h : st.step x = .error e) :
    st.Blames x.1 e := by
  obtain ⟨frame, awaited, enclosing⟩ := st
  obtain ⟨offset, s⟩ := x
  unfold State.step at h
  dsimp only at h
  split at h
  case h_1 | h_2 | h_3 | h_6 | h_7 => cases h
  case h_4 | h_5 =>
    rw [← Except.error.inj h]
    exact ⟨fun _ => rfl, by simp⟩
  case h_8 =>
    split at h
    case h_1 =>
      rw [← Except.error.inj h]
      exact ⟨fun _ => rfl, by simp⟩
    case h_2 => cases h
    case h_3 =>
      rw [← Except.error.inj h]
      exact ⟨fun hne => absurd rfl hne, fun _ => ⟨_, rfl⟩⟩

theorem blames_finish {st : State} {stop : Nat} {e : ExpressionError} (h : st.finish stop = .error e) :
    st.Blames stop e := by
  obtain ⟨frame, awaited, enclosing⟩ := st
  unfold State.finish at h
  dsimp only at h
  split at h
  case h_1 | h_2 =>
    rw [← Except.error.inj h]
    exact ⟨fun _ => rfl, by simp⟩
  case h_3 =>
    rw [← Except.error.inj h]
    exact ⟨fun hne => absurd rfl hne, fun _ => ⟨_, rfl⟩⟩
  case h_4 => cases h

theorem exists_of_run_eq_error {xs : List (Nat × Symbol)} {st : State} {e : ExpressionError}
    (h : st.run xs = .error e) : ∃ before x after st', xs = before ++ x :: after ∧
      st.run before = .ok st' ∧ st'.step x = .error e := by
  induction xs generalizing st with
  | nil => cases h
  | cons x xs ih =>
    rw [State.run] at h
    cases hstep : st.step x with
    | error e' =>
      rw [hstep] at h
      exact ⟨[], x, xs, st, rfl, rfl, by rw [hstep, Except.error.inj h]⟩
    | ok next =>
      rw [hstep] at h
      obtain ⟨before, y, after, st', rfl, hrun, hfails⟩ := ih h
      refine ⟨x :: before, y, after, st', rfl, ?_, hfails⟩
      rw [State.run, hstep]
      exact hrun

/-! ## What can follow -/

/-- What stands in open parentheses is completed by closing them. -/
theorem Enclosed.exists_derives {enclosing : List (Nat × Frame)} {outer inner : List Symbol} {t : Tree}
    (h : Enclosed enclosing outer) (hinner : Derives .or inner fun tags => t.eval tags) :
    ∃ closings v, Derives .or (outer ++ (inner ++ closings)) v ∧ ∀ s ∈ closings, s = Symbol.closing := by
  induction h generalizing inner t with
  | nil => exact ⟨[], _, by simpa using hinner, by simp⟩
  | @cons offset f enclosing outer ss _ hf ih =>
    have hframe := derives_alternate (inside_conjoin hf hinner.parentheses)
    obtain ⟨closings, v, hderives, hclosings⟩ := ih hframe
    exact ⟨.closing :: closings, v, by simpa using hderives, by simpa using hclosings⟩

/-- From every state that is reached the symbols can be completed to an expression. -/
theorem exists_derives_of_stands {st : State} {ss : List Symbol} (h : st.Stands ss) :
    ∃ more v, Derives .or (ss ++ more) v ∧ ∀ s, .tag s ∈ more → IsTag s := by
  obtain ⟨frame, awaited, enclosing⟩ := st
  obtain ⟨outer, inner, rfl, houter, hinner⟩ := h
  have hno : ∀ closings : List Symbol, (∀ s ∈ closings, s = .closing) → ∀ s, .tag s ∉ closings :=
    fun closings hclosings s hs => by simpa using hclosings _ hs
  cases awaited with
  | operand after =>
    -- Any tag does as the operand that is awaited.
    have htag := derives_alternate (inside_conjoin hinner (derives_tag "@a"))
    obtain ⟨closings, v, hderives, hclosings⟩ := houter.exists_derives htag
    refine ⟨.tag "@a" :: closings, v, by simpa using hderives, fun s hs => ?_⟩
    rcases List.mem_cons.1 hs with heq | hs
    · rw [Symbol.tag.inj heq]
      exact ⟨['a'], rfl, by simp, List.all_eq_true.1 rfl⟩
    · exact absurd hs (hno closings hclosings s)
  | operator t =>
    obtain ⟨closings, v, hderives, hclosings⟩ := houter.exists_derives (derives_alternate hinner)
    exact ⟨closings, v, by simpa using hderives, fun s hs => absurd hs (hno closings hclosings s)⟩

theorem not_derives_of_step {xs : List (Nat × Symbol)} {st : State} {offset : Nat} {s : Symbol}
    {e : ExpressionError} (hrun : ({} : State).run xs = .ok st) (hstep : st.step (offset, s) = .error e)
    (more : List Symbol) (v : List String → Bool) : ¬ Derives .or (xs.map Prod.snd ++ s :: more) v := by
  intro hderives
  have hplaced : (xs ++ (offset, s) :: more.map (0, ·)).map Prod.snd = xs.map Prod.snd ++ s :: more := by
    simp
  obtain ⟨t, f, conjuncts, hwhole, -, -⟩ := exists_run_of_derives hderives hplaced (f := {}) rfl none []
  rw [show (⟨{}, .operand none, []⟩ : State) = {} from rfl, run_append hrun, State.run, hstep] at hwhole
  cases hwhole

theorem not_derives_of_finish {xs : List (Nat × Symbol)} {st : State} {stop : Nat} {e : ExpressionError}
    (hrun : ({} : State).run xs = .ok st) (hfinish : st.finish stop = .error e)
    (v : List String → Bool) : ¬ Derives .or (xs.map Prod.snd) v := by
  intro hderives
  obtain ⟨t, f, conjuncts, hwhole, -, -⟩ := exists_run_of_derives hderives rfl (f := {}) rfl none []
  rw [show (⟨{}, .operand none, []⟩ : State) = {} from rfl, hrun] at hwhole
  rw [Except.ok.inj hwhole] at hfinish
  cases hfinish

end Reader

/-! ## What cannot follow -/

/-- No expression has it behind the symbols. -/
def Found.Blocks (before : List Symbol) : Found → Prop
  | .symbol s => ∀ more v, ¬ Derives .or (before ++ s :: more) v
  | .finish => ∀ v, ¬ Derives .or before v
  | .character _ | .word _ | .nameless => True

theorem Found.Blocks.not_isExpression {before : List Symbol} {found : Found} (h : found.Blocks before)
    {cs rest : List Char} (hstarts : Starts cs before rest) (hfound : found.Begins rest) :
    ¬ IsExpression cs := by
  rintro ⟨ss, v, hwritten, hderives⟩
  obtain ⟨hnone, hss⟩ := symbols_of_written hwritten 0
  obtain ⟨offset, hfault, hplaced⟩ := symbols_of_starts hstarts 0
  rw [hss] at hplaced
  rw [hnone] at hfault
  have hreads := hfound.reads offset
  cases found with
  | symbol s =>
    obtain ⟨front, last, -, -, heq⟩ := hreads
    rw [heq] at hplaced
    rw [hplaced] at hderives
    exact h _ v hderives
  | finish =>
    rw [hreads.1, List.map_nil, List.append_nil] at hplaced
    rw [hplaced] at hderives
    exact h v hderives
  | character | word | nameless =>
    have hfinish := hreads.2.2.1.1 hfault.symm
    cases hfinish

/-! ## The first problem -/

theorem Tree.parse_eq_error {input : String} {e : ExpressionError} (h : Tree.parse input = .error e) :
    ∃ xs ys st, (symbols 0 input.toList).placed = xs ++ ys ∧ ({} : Reader.State).run xs = .ok st ∧
      ((∃ x more, ys = x :: more ∧ st.step x = .error e) ∨
        (ys = [] ∧ (symbols 0 input.toList).fault = none ∧
          st.finish (symbols 0 input.toList).stop = .error e) ∨
        ∃ fault, ys = [] ∧ (symbols 0 input.toList).fault = some fault ∧
          e = ⟨(symbols 0 input.toList).stop, fault⟩) := by
  rw [Tree.parse_eq] at h
  unfold Reader.State.feed at h
  cases hrun : ({} : Reader.State).run (symbols 0 input.toList).placed with
  | error e' =>
    rw [hrun] at h
    obtain ⟨xs, x, more, st, hplaced, hxs, hstep⟩ := Reader.exists_of_run_eq_error hrun
    rw [Except.error.inj h] at hstep
    exact ⟨xs, _, st, hplaced, hxs, Or.inl ⟨x, more, rfl, hstep⟩⟩
  | ok st =>
    rw [hrun] at h
    refine ⟨_, [], st, (List.append_nil _).symm, hrun, Or.inr ?_⟩
    cases hfault : (symbols 0 input.toList).fault with
    | none =>
      rw [hfault] at h
      exact Or.inl ⟨rfl, rfl, h⟩
    | some fault =>
      rw [hfault] at h
      exact Or.inr ⟨fault, rfl, rfl, (Except.error.inj h).symm⟩

/-- Where the reader stops something stands that nothing can be read from, and the error is about that
place or about a parenthesis. -/
theorem exists_blocks {input : String} {e : ExpressionError} (h : Tree.parse input = .error e) :
    ∃ xs ys st, (symbols 0 input.toList).placed = xs ++ ys ∧ ({} : Reader.State).run xs = .ok st ∧
      ∀ offset rest, symbols offset rest = { symbols 0 input.toList with placed := ys } →
        (∀ c ∈ rest.head?, ¬ Text.isBlank c) →
        ∃ found : Found, found.Begins rest ∧ found.Blocks (xs.map Prod.snd) ∧
          st.Blames (offset + found.lead) e := by
  obtain ⟨xs, ys, st, hplaced, hrun, hfails⟩ := Tree.parse_eq_error h
  refine ⟨xs, ys, st, hplaced, hrun, fun offset rest hsymbols hrest => ?_⟩
  obtain ⟨found, hfound⟩ := exists_begins hrest
  have hreads := hfound.reads offset
  rw [hsymbols] at hreads
  refine ⟨found, hfound, ?_⟩
  -- Where the run stops: at a symbol that it refuses, at the end of the text, or at what is no symbol.
  rcases hfails with ⟨⟨o, s⟩, more, rfl, hstep⟩ | ⟨rfl, hfault, hfinish⟩ | ⟨fault, rfl, hfault, rfl⟩
  · cases found with
    | symbol s' =>
      obtain ⟨front, last, -, -, heq⟩ := hreads
      have hhead := (List.cons.inj (congrArg Symbols.placed heq)).1
      obtain ⟨rfl, rfl⟩ := Prod.mk.inj hhead
      exact ⟨Reader.not_derives_of_step hrun hstep, Reader.blames_step hstep⟩
    | finish | character | word | nameless =>
      have hnone := hreads.1
      cases hnone
  · cases found with
    | symbol s =>
      obtain ⟨front, last, -, -, heq⟩ := hreads
      have hnone := congrArg Symbols.placed heq
      cases hnone
    | finish =>
      have hstop : (symbols 0 input.toList).stop = offset + Found.finish.lead := hreads.2.1
      rw [hstop] at hfinish
      exact ⟨Reader.not_derives_of_finish hrun hfinish, Reader.blames_finish hfinish⟩
    | character | word | nameless =>
      have hend := hreads.2.2.1.1 hfault
      cases hend
  · cases found with
    | symbol s =>
      obtain ⟨front, last, -, -, heq⟩ := hreads
      have hnone := congrArg Symbols.placed heq
      cases hnone
    | finish =>
      have hnone : (symbols 0 input.toList).fault = none := hreads.2.2.1.2 rfl
      rw [hfault] at hnone
      cases hnone
    | character | word | nameless =>
      obtain ⟨-, hstop, -, hmissing⟩ := hreads
      dsimp only at hstop hmissing
      rw [hfault] at hmissing
      exact ⟨trivial, fun _ => hstop, fun heq => absurd (congrArg some heq) hmissing⟩

theorem exists_cons_of_begins {cs : List Char} (h : (Found.symbol .opening).Begins cs) :
    ∃ rest, cs = '(' :: rest := by
  obtain ⟨⟨rest, hstarts⟩, hblank⟩ := h
  generalize hss : [Symbol.opening] = ss at hstarts
  cases hstarts with
  | blank hc => exact absurd hc (hblank _ rfl)
  | opening => exact ⟨_, rfl⟩
  | nil | closing | tag | operator => cases hss

theorem symbols_opening (offset : Nat) (cs : List Char) :
    symbols offset ('(' :: cs) = (symbols (offset + 1) cs).cons offset .opening := by
  rw [symbols, if_neg (by decide), if_pos rfl]

/-- A parenthesis that is read stands at its offset, and the symbols behind it follow it. -/
theorem exists_opening {cs : List Char} {outer inside ys : List (Nat × Symbol)} {offset : Nat}
    (h : (symbols 0 cs).placed = outer ++ (offset, .opening) :: inside ++ ys) :
    ∃ lead between stop, cs = lead ++ '(' :: (between ++ stop) ∧ offset = Text.byteLength lead ∧
      Starts cs (outer.map Prod.snd) ('(' :: (between ++ stop)) ∧
      Starts (between ++ stop) (inside.map Prod.snd) stop ∧ (∀ c ∈ stop.head?, ¬ Text.isBlank c) ∧
      symbols (Text.byteLength (lead ++ '(' :: between)) stop = { symbols 0 cs with placed := ys } := by
  rw [List.append_assoc, List.cons_append] at h
  obtain ⟨lead, mid, rfl, hstarts, hblank, hsymbols⟩ := exists_starts_of_placed h
  rw [Nat.zero_add] at hsymbols
  -- The symbol was read there, so what begins there is a parenthesis.
  obtain ⟨tail, rfl⟩ : ∃ tail, mid = '(' :: tail := by
    obtain ⟨found, hfound⟩ := exists_begins hblank
    have hreads := hfound.reads (Text.byteLength lead)
    rw [hsymbols] at hreads
    cases found with
    | finish | character | word | nameless =>
      have hnone := hreads.1
      cases hnone
    | symbol s =>
      obtain ⟨front, last, -, -, heq⟩ := hreads
      have hs := congrArg Prod.snd (List.cons.inj (congrArg Symbols.placed heq)).1
      rw [← show Symbol.opening = s from hs] at hfound
      exact exists_cons_of_begins hfound
  rw [symbols_opening] at hsymbols
  obtain ⟨hhead, hinside⟩ := List.cons.inj (congrArg Symbols.placed hsymbols)
  have hoffset : offset = Text.byteLength lead := (congrArg Prod.fst hhead).symm
  obtain ⟨between, stop, rfl, hbetween, hstop, hrest⟩ := exists_starts_of_placed hinside
  refine ⟨lead, between, stop, rfl, hoffset, hstarts, hbetween, hstop, ?_⟩
  have hlength : Text.byteLength (lead ++ '(' :: between) =
      Text.byteLength lead + 1 + Text.byteLength between := by
    rw [Text.byteLength_append, Text.byteLength_cons, Nat.add_assoc]
    rfl
  rw [hlength, hrest]
  have hread := congrArg (fun read : Symbols => { read with placed := ys }) hsymbols
  exact hread

/-- Symbols that are read without an error start some expression. -/
theorem exists_isExpression {xs : List (Nat × Symbol)} {st : Reader.State} {cs rest : List Char}
    (hrun : ({} : Reader.State).run xs = .ok st) (hstarts : Starts cs (xs.map Prod.snd) rest) :
    ∃ cs rest, Starts cs (xs.map Prod.snd) rest ∧ IsExpression cs := by
  have hstands := Reader.stands_run Reader.stands_start hrun
  obtain ⟨more, v, hderives, hmore⟩ := Reader.exists_derives_of_stands hstands
  have htags : ∀ s, .tag s ∈ xs.map Prod.snd ++ more → IsTag s := by
    intro s hs
    rcases List.mem_append.1 hs with hs | hs
    · exact hstarts.isTag s hs
    · exact hmore s hs
  obtain ⟨text, hwritten⟩ := exists_written htags
  obtain ⟨last, hfront, -⟩ := exists_starts_of_written hwritten
  exact ⟨_, last, hfront, _, v, hwritten, hderives⟩

/-- The text where reading stops, and behind which of its parentheses it does so. -/
theorem exists_stop {cs : List Char} {xs ys : List (Nat × Symbol)} {st : Reader.State} {offset : Nat}
    (hplaced : (symbols 0 cs).placed = xs ++ ys) (hrun : ({} : Reader.State).run xs = .ok st)
    {open? : Prop} (hopen : open? → ∃ offsets, st.enclosing.map Prod.fst = offset :: offsets) :
    ∃ front stop, cs = front ++ stop ∧ Starts cs (xs.map Prod.snd) stop ∧
      (∀ c ∈ stop.head?, ¬ Text.isBlank c) ∧
      symbols (Text.byteLength front) stop = { symbols 0 cs with placed := ys } ∧
      (open? → ∃ outer inside lead tail, xs.map Prod.snd = outer ++ .opening :: inside ∧
        Balanced inside ∧ cs = lead ++ '(' :: tail ∧ offset = Text.byteLength lead ∧
        Starts cs outer ('(' :: tail) ∧ Starts tail inside stop) := by
  by_cases h : open?
  · obtain ⟨offsets, henclosing⟩ := hopen h
    have hunclosed := Reader.unclosed_run hrun
    rw [henclosing] at hunclosed
    cases hunclosed with
    | @cons _ _ outer inside _ hinside =>
      obtain ⟨lead, between, stop, rfl, hoffset, houter, hbetween, hstop, hrest⟩ := exists_opening hplaced
      have hsymbols : (outer ++ (offset, Symbol.opening) :: inside).map Prod.snd =
          outer.map Prod.snd ++ .opening :: inside.map Prod.snd := by
        simp
      refine ⟨lead ++ '(' :: between, stop, by simp, ?_, hstop, hrest, fun _ => ?_⟩
      · rw [hsymbols]
        exact houter.trans (.opening hbetween)
      · exact ⟨_, _, lead, _, hsymbols, hinside, rfl, hoffset, houter, hbetween⟩
  · obtain ⟨front, stop, hcs, hstarts, hstop, hrest⟩ := exists_starts_of_placed hplaced
    rw [Nat.zero_add] at hrest
    exact ⟨front, stop, hcs, hstarts, hstop, hrest, fun hopen => absurd hopen h⟩

theorem Found.Begins.exists_mark {found : Found} {cs : List Char} (h : found.Begins cs) :
    ∃ mark rest, cs = mark ++ rest ∧ Text.byteLength mark = found.lead := by
  cases found with
  | nameless =>
    obtain ⟨rest, rfl, -⟩ := h
    exact ⟨['@'], rest, rfl, rfl⟩
  | symbol | finish | character | word => exact ⟨[], cs, rfl, rfl⟩

namespace Expression

/-- An error points to a place of the text.  The symbols in front of what is found where reading stops can
be completed to an expression, and no expression has what is found behind them.  The error is about the
place of what is found, a name missing just behind its `@`; only where a parenthesis is not closed it is
about the innermost that is open. -/
theorem error_at_first_problem {input : String} {e : ExpressionError} (h : parse input = .error e) :
    (∃ front rest, input.toList = front ++ rest ∧ e.offset = Text.byteLength front) ∧
    ∃ before found front stop, input.toList = front ++ stop ∧ Starts input.toList before stop ∧
      Found.Begins found stop ∧
      (∃ cs rest, Starts cs before rest ∧ IsExpression cs) ∧
      (∀ cs rest, Starts cs before rest → found.Begins rest → ¬ IsExpression cs) ∧
      (e.fault ≠ .missingClosing → e.offset = Text.byteLength front + found.lead) ∧
      (e.fault = .missingClosing → ∃ outer inside lead tail, before = outer ++ .opening :: inside ∧
        Balanced inside ∧ input.toList = lead ++ '(' :: tail ∧ e.offset = Text.byteLength lead ∧
        Starts input.toList outer ('(' :: tail) ∧ Starts tail inside stop) := by
  have htree : Tree.parse input = .error e := by
    unfold parse at h
    cases htree : Tree.parse input with
    | ok t => simp [htree, Except.map] at h
    | error e' =>
      rw [htree] at h
      exact congrArg Except.error (Except.error.inj h)
  obtain ⟨xs, ys, st, hplaced, hrun, hblocks⟩ := exists_blocks htree
  have hopen : e.fault = .missingClosing → ∃ offsets, st.enclosing.map Prod.fst = e.offset :: offsets := by
    obtain ⟨_, stop, -, -, hstop, hsymbols⟩ := exists_starts_of_placed hplaced
    obtain ⟨_, -, -, -, hopen⟩ := hblocks _ stop hsymbols hstop
    exact hopen
  obtain ⟨front, stop, hinput, hstarts, hstop, hsymbols, hparenthesis⟩ := exists_stop hplaced hrun hopen
  obtain ⟨found, hfound, hblocked, hplace⟩ := hblocks _ stop hsymbols hstop
  refine ⟨?_, xs.map Prod.snd, found, front, stop, hinput, hstarts, hfound,
    exists_isExpression hrun hstarts, fun _ _ => hblocked.not_isExpression, hplace.1, hparenthesis⟩
  -- The offset lies on a boundary of characters in both cases.
  by_cases hmissing : e.fault = .missingClosing
  · obtain ⟨_, _, lead, tail, -, -, hlead, hoffset, -, -⟩ := hparenthesis hmissing
    exact ⟨lead, _, hlead, hoffset⟩
  · obtain ⟨mark, rest, rfl, hmark⟩ := hfound.exists_mark
    refine ⟨front ++ mark, rest, by rw [hinput, List.append_assoc], ?_⟩
    rw [hplace.1 hmissing, Text.byteLength_append, hmark]

theorem error_at_first_problem_of_character :
    parse "\u00A0(@a or (@b é" = .error ⟨13, .unexpectedCharacter 'é'⟩ ∧
      ∃ before found front stop, "\u00A0(@a or (@b é".toList = front ++ stop ∧
        Starts "\u00A0(@a or (@b é".toList before stop ∧ Found.Begins found stop ∧
        (∃ cs rest, Starts cs before rest ∧ IsExpression cs) ∧
        (∀ cs rest, Starts cs before rest → found.Begins rest → ¬ IsExpression cs) ∧
        13 = Text.byteLength front + found.lead := by
  have hparse : parse "\u00A0(@a or (@b é" = .error ⟨13, .unexpectedCharacter 'é'⟩ := by cbv
  obtain ⟨-, before, found, front, stop, hinput, hstarts, hfound, hviable, hblocked, hplace, -⟩ :=
    error_at_first_problem hparse
  exact ⟨hparse, before, found, front, stop, hinput, hstarts, hfound, hviable, hblocked, hplace (by simp)⟩

end Expression

end Gherkin.Tag
