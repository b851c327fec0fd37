import Gherkin.Proofs.Token.Coverage
import Gherkin.Proofs.Token.Passing

/-!
# A cursor stands in one list of tokens

Whatever is asked of a cursor, its answers are those of a place in the list of all tokens of the source:
how many of them were passed, and whether the end was handed out by `next?`.  The faults recorded so far are
those met on the way to the tokens that were passed.
-/

namespace Gherkin

namespace Scan

/-- A token, and the faults met on the way to it from the token before. -/
structure Arrival where
  faults : List LexicalError
  token : Token

def arrivalsAfter (met : List LexicalError) : List Scanned → List Arrival
  | [] => []
  | .error e :: xs => arrivalsAfter (met ++ [e]) xs
  | .token t :: xs => ⟨met, t⟩ :: arrivalsAfter [] xs

theorem map_token_arrivalsAfter (met : List LexicalError) (xs : List Scanned) :
    (arrivalsAfter met xs).map Arrival.token = xs.filterMap Scanned.token? := by
  fun_induction arrivalsAfter met xs with
  | case1 => rfl
  | case2 met e xs ih => exact ih
  | case3 met t xs ih =>
    rw [List.map_cons, ih]
    rfl

/-- A token at the end leaves no fault over. -/
theorem flatMap_faults_arrivalsAfter (met : List LexicalError) (xs : List Scanned) (t : Token) :
    (arrivalsAfter met (xs ++ [.token t])).flatMap Arrival.faults =
      met ++ (xs ++ [Scanned.token t]).filterMap Scanned.error? := by
  induction xs generalizing met with
  | nil => simp [arrivalsAfter, Scanned.error?]
  | cons x xs ih =>
    cases x with
    | error e =>
      rw [List.cons_append, arrivalsAfter, ih]
      simp [Scanned.error?]
    | token u =>
      rw [List.cons_append, arrivalsAfter, List.flatMap_cons, ih]
      rfl

theorem arrivalsAfter_map_error (met faults : List LexicalError) (xs : List Scanned) :
    arrivalsAfter met (faults.map .error ++ xs) = arrivalsAfter (met ++ faults) xs := by
  induction faults generalizing met with
  | nil => rw [List.map_nil, List.nil_append, List.append_nil]
  | cons e faults ih =>
    rw [List.map_cons, List.cons_append, arrivalsAfter, ih, List.append_assoc]
    rfl

theorem exists_lines_eq_concat (d : Dialect) (loc : Location) (afterBlank : Bool) (ls : List Text.Line) :
    ∃ xs t, lines d loc afterBlank ls = xs ++ [.token t] := by
  fun_induction lines d loc afterBlank ls with
  | case1 => exact ⟨[], _, rfl⟩
  | case2 loc afterBlank l ls step fewer ih =>
    obtain ⟨xs, t, hxs⟩ := ih
    exact ⟨step.results ++ xs, t, by rw [hxs, List.append_assoc]⟩

theorem arrivalsAfter_ne_nil (met : List LexicalError) (xs : List Scanned) (t : Token) :
    arrivalsAfter met (xs ++ [.token t]) ≠ [] := by
  intro hnil
  have htokens := map_token_arrivalsAfter met (xs ++ [.token t])
  rw [hnil] at htokens
  simp [Scanned.token?] at htokens

theorem exists_all_eq_concat (d : Dialect) (source : String) : ∃ xs t, all d source = xs ++ [.token t] :=
  exists_lines_eq_concat d _ _ _

def EndsOnce (all : List Arrival) : Prop :=
  ∃ front last, all = front ++ [last] ∧ last.token.kind = .eof ∧ ∀ a ∈ front, a.token.kind ≠ .eof

theorem EndsOnce.kind_eq_eof_iff {done more : List Arrival} {a : Arrival}
    (h : EndsOnce (done ++ a :: more)) : a.token.kind = .eof ↔ more = [] := by
  obtain ⟨front, last, heq, hlast, hfront⟩ := h
  rcases List.eq_nil_or_concat more with rfl | ⟨rest, z, rfl⟩
  · have ha : [a] = [last] := (List.append_inj' heq rfl).2
    rw [(List.cons.inj ha).1]
    exact iff_of_true hlast rfl
  · have hdone : done ++ a :: rest = front := by
      rw [List.concat_eq_append, ← List.cons_append, ← List.append_assoc] at heq
      exact (List.append_inj' heq rfl).1
    have ha : a ∈ front := by simp [← hdone]
    exact iff_of_false (hfront a ha) (by simp)

end Scan

open Scan (Arrival arrivalsAfter)

def arrivals (d : Dialect) (source : String) : List Arrival := arrivalsAfter [] (Scan.all d source)

theorem map_token_arrivals (d : Dialect) (source : String) :
    (arrivals d source).map Arrival.token = tokens d source :=
  Scan.map_token_arrivalsAfter [] (Scan.all d source)

theorem flatMap_faults_arrivals (d : Dialect) (source : String) :
    (arrivals d source).flatMap Arrival.faults = lexicalErrors d source := by
  obtain ⟨xs, t, hall⟩ := Scan.exists_all_eq_concat d source
  unfold arrivals lexicalErrors
  rw [hall]
  exact Scan.flatMap_faults_arrivalsAfter [] xs t

theorem endsOnce_arrivals {d : Dialect} (hd : d.Offered) (source : String) :
    Scan.EndsOnce (arrivals d source) := by
  obtain ⟨_, _, xs, finish, -, -, hall, -, htiles⟩ := Scan.exists_tiles_all hd.isKeyword source
  have htokens := map_token_arrivals d source
  rw [tokens, hall, List.filterMap_append] at htokens
  obtain ⟨front, back, harrivals, hfront, hback⟩ := List.map_eq_append_iff.1 htokens
  obtain ⟨last, rfl, hlast⟩ := List.map_eq_singleton_iff.1 hback
  refine ⟨front, last, harrivals, by rw [hlast], fun a ha => ?_⟩
  have hmem : a.token ∈ xs.filterMap Scanned.token? := by
    rw [← hfront]
    exact List.mem_map_of_mem ha
  obtain ⟨_, _, _, _, hcovers, -⟩ := htiles.exists_covers hmem
  exact hcovers.not_eof

namespace Cursor

/-! ## The next token -/

def ahead (c : Cursor) : List Arrival := arrivalsAfter [] c.scanned

theorem exists_scanned_eq_concat (c : Cursor) : ∃ xs t, c.scanned = xs ++ [.token t] := by
  unfold scanned inLine behindLine
  split
  · exact Scan.exists_lines_eq_concat _ _ _ _
  · obtain ⟨xs, t, hlines⟩ := Scan.exists_lines_eq_concat c.dialect
      ((c.location.past c.line.body).past c.line.ending.chars) true (Text.lines c.later)
    refine ⟨Scan.ofBody c.dialect c.place c.quoteMayOpen c.location c.line.body ++
      (Scan.ofEnding (c.location.past c.line.body) c.line.ending ++ xs), t, ?_⟩
    rw [hlines, List.append_assoc, List.append_assoc]

/-- The cursor after it has passed `a`, which `more` follows.  The last token is not passed: it stays ahead
for ever. -/
structure Passes (c c' : Cursor) (a : Arrival) (more : List Arrival) : Prop where
  dialect : c'.dialect = c.dialect
  source : c'.source = c.source
  finished : c'.finished = c.finished
  coherent : c'.Coherent
  errors : c'.errors = c.errors ++ a.faults
  ahead : c'.ahead = if more = [] then [⟨[], a.token⟩] else more

/-- Handing out a token passes it, with the faults on the way to it. -/
theorem passes_nextToken {c : Cursor} (hc : c.Coherent) : ∃ a more, c.ahead = a :: more ∧
    c.nextToken.1 = a.token ∧ c.Passes c.nextToken.2 a more := by
  obtain ⟨faults, hmoves | ⟨hmoves, hend⟩⟩ := c.moves_nextToken
  · obtain ⟨xs, last, hconcat⟩ := c.nextToken.2.exists_scanned_eq_concat
    have hne : c.nextToken.2.ahead ≠ [] := by
      unfold ahead
      rw [hconcat]
      exact Scan.arrivalsAfter_ne_nil [] xs last
    refine ⟨⟨faults, c.nextToken.1⟩, c.nextToken.2.ahead, ?_, rfl, hmoves.dialect, hmoves.source, hmoves.finished,
      hmoves.coherent hc, hmoves.errors, (if_neg hne).symm⟩
    unfold ahead
    rw [hmoves.scanned hc]
    exact Scan.arrivalsAfter_map_error [] faults _
  · refine ⟨⟨faults, c.nextToken.1⟩, [], ?_, rfl, hmoves.dialect, hmoves.source, hmoves.finished,
      hmoves.coherent hc, hmoves.errors, ?_⟩
    · unfold ahead
      rw [hmoves.scanned hc, hend]
      exact Scan.arrivalsAfter_map_error [] faults _
    · unfold ahead
      rw [hend]
      rfl

theorem finished_nextToken (c : Cursor) : c.nextToken.2.finished = c.finished := by
  obtain ⟨faults, hmoves | ⟨hmoves, -⟩⟩ := c.moves_nextToken
  · exact hmoves.finished
  · exact hmoves.finished

/-! ## A place in a list of tokens -/

/-- How many tokens of a list were passed, and whether the last was handed out by `next?`. -/
structure Progress where
  passed : Nat := 0
  finished : Bool := false

namespace Progress

variable {all : List Arrival}

/-- What lies ahead: the tokens that were not passed, or for ever the last. -/
def ahead (all : List Arrival) (p : Progress) : List Arrival :=
  if p.passed < all.length then all.drop p.passed
  else (all.getLast?.map fun a => ⟨[], a.token⟩).toList

def errors (all : List Arrival) (p : Progress) : List LexicalError :=
  (all.take p.passed).flatMap Arrival.faults

def pass (all : List Arrival) (p : Progress) : Progress :=
  { p with passed := min (p.passed + 1) all.length }

def call (all : List Arrival) (p : Progress) : Call → List Token × Progress
  | .nextToken => (((p.ahead all).take 1).map Arrival.token, p.pass all)
  | .next =>
    if p.finished then ([], p)
    else
      let p' := p.pass all
      (((p.ahead all).take 1).map Arrival.token, { p' with finished := p'.passed = all.length })
  | .drain => if p.finished then ([], p) else ((p.ahead all).map Arrival.token, ⟨all.length, true⟩)
  | .tokenize => (all.map Arrival.token, ⟨all.length, true⟩)
  | .reset => ([], {})

def run (all : List Arrival) (p : Progress) : List Call → List (List Token × List LexicalError)
  | [] => []
  | request :: requests =>
    let (ts, p') := p.call all request
    (ts, p'.errors all) :: p'.run all requests

theorem ahead_start (hends : Scan.EndsOnce all) : ({} : Progress).ahead all = all := by
  obtain ⟨front, last, rfl, -⟩ := hends
  exact if_pos (by simp)

structure Next (all : List Arrival) (p : Progress) (a : Arrival) (more : List Arrival) : Prop where
  ahead : p.ahead all = a :: more
  ahead_pass : (p.pass all).ahead all = if more = [] then [⟨[], a.token⟩] else more
  errors_pass : (p.pass all).errors all = p.errors all ++ a.faults
  passed_eq_length_iff : (p.pass all).passed = all.length ↔ more = []
  kind_eq_eof_iff : a.token.kind = .eof ↔ more = []

theorem exists_next (hends : Scan.EndsOnce all) {p : Progress} (hp : p.passed ≤ all.length) :
    ∃ a more, p.Next all a more := by
  obtain ⟨passed, finished⟩ := p
  have hpassed : passed = (all.take passed).length := (List.length_take_of_le hp).symm
  have hall : all = all.take passed ++ all.drop passed := (List.take_append_drop passed all).symm
  generalize all.take passed = done at hpassed hall
  generalize all.drop passed = left at hall
  subst hall hpassed
  -- Past the last arrival the place stays, and the last token is handed out again.
  cases left with
  | nil =>
    obtain ⟨front, last, hfront, hlast, -⟩ := hends
    rw [List.append_nil] at hfront ⊢
    have hstays : pass done ⟨done.length, finished⟩ = ⟨done.length, finished⟩ := by
      unfold pass
      rw [Nat.min_eq_right (Nat.le_succ _)]
    have hahead : ahead done ⟨done.length, finished⟩ = [⟨[], last.token⟩] := by
      unfold ahead
      rw [if_neg (by simp), hfront, List.getLast?_concat]
      rfl
    refine ⟨⟨[], last.token⟩, [], hahead, ?_, ?_, ?_, iff_of_true hlast rfl⟩
    · rw [hstays, hahead, if_pos rfl]
    · rw [hstays, List.append_nil]
    · rw [hstays]
      exact iff_of_true rfl rfl
  | cons a more =>
    have hlength : (done ++ a :: more).length = done.length + 1 + more.length := by
      rw [List.length_append, List.length_cons]
      omega
    have hpass : pass (done ++ a :: more) ⟨done.length, finished⟩ = ⟨(done ++ [a]).length, finished⟩ := by
      unfold pass
      rw [hlength, List.length_append, List.length_singleton, Nat.min_eq_left (Nat.le_add_right _ _)]
    refine ⟨a, more, ?_, ?_, ?_, ?_, hends.kind_eq_eof_iff⟩
    · unfold ahead
      rw [if_pos (by simp), List.drop_left]
    · rw [hpass, List.append_cons]
      unfold ahead
      cases more with
      | nil =>
        rw [if_neg (by simp), if_pos rfl, List.append_nil, List.getLast?_concat]
        rfl
      | cons b more => rw [if_pos (by simp), if_neg (by simp), List.drop_left]
    · have hdone : (done ++ a :: more).take done.length = done := List.take_left
      have hlast : (done ++ a :: more).take (done ++ [a]).length = done ++ [a] := by
        rw [List.append_cons done a more]
        exact List.take_left
      rw [hpass]
      unfold errors
      dsimp only
      rw [hdone, hlast, List.flatMap_append, List.flatMap_singleton]
    · rw [hpass, List.append_cons]
      simp

end Progress

/-! ## The cursor follows its place -/

structure At (d : Dialect) (source : String) (c : Cursor) (p : Progress) : Prop where
  dialect_eq : c.dialect = d
  source_eq : c.source = source
  finished : c.finished = p.finished
  coherent : c.Coherent
  passed : p.passed ≤ (arrivals d source).length
  errors : c.errors = p.errors (arrivals d source)
  ahead : c.ahead = p.ahead (arrivals d source)

def run (c : Cursor) : List Call → List (List Token × List LexicalError)
  | [] => []
  | request :: requests =>
    let (ts, c') := c.call request
    (ts, c'.errors) :: c'.run requests

variable {d : Dialect} {source : String} {c : Cursor} {p : Progress}

theorem start_eq (d : Dialect) (source : String) :
    (start d source).dialect = d ∧ (start d source).source = source ∧ (start d source).finished = false ∧
      (start d source).Coherent ∧ (start d source).errors = [] ∧ (start d source).scanned = Scan.all d source := by
  unfold start Scan.all Scan.opening
  cases source.toList with
  | nil => exact ⟨rfl, rfl, rfl, fun _ => rfl, rfl, rfl⟩
  | cons x rest =>
    dsimp only
    split
    case isTrue hmark =>
      subst hmark
      exact ⟨rfl, rfl, rfl, fun _ => rfl, rfl, rfl⟩
    case isFalse => exact ⟨rfl, rfl, rfl, fun _ => rfl, rfl, rfl⟩

theorem at_start (d : Dialect) (source : String) : At d source (start d source) {} := by
  have hne : arrivals d source ≠ [] := by
    obtain ⟨xs, last, hall⟩ := Scan.exists_all_eq_concat d source
    unfold arrivals
    rw [hall]
    exact Scan.arrivalsAfter_ne_nil [] xs last
  obtain ⟨hdialect, hsource, hfinished, hcoherent, herrors, hscanned⟩ := start_eq d source
  refine ⟨hdialect, hsource, hfinished, hcoherent, Nat.zero_le _, herrors, ?_⟩
  unfold Progress.ahead Cursor.ahead
  rw [if_pos (List.length_pos_of_ne_nil hne), hscanned]
  rfl

theorem At.reset (h : At d source c p) : At d source c.reset {} := by
  unfold Cursor.reset
  rw [h.dialect_eq, h.source_eq]
  exact at_start d source

theorem At.nextToken (h : At d source c p) {a : Arrival} {more : List Arrival}
    (hnext : p.Next (arrivals d source) a more) :
    c.nextToken.1 = a.token ∧ At d source c.nextToken.2 (p.pass (arrivals d source)) := by
  obtain ⟨b, rest, hahead, htoken, hpasses⟩ := passes_nextToken h.coherent
  rw [h.ahead, hnext.ahead] at hahead
  obtain ⟨rfl, rfl⟩ := List.cons.inj hahead
  refine ⟨htoken, ?_⟩
  exact ⟨hpasses.dialect.trans h.dialect_eq, hpasses.source.trans h.source_eq,
    hpasses.finished.trans h.finished, hpasses.coherent, Nat.min_le_right _ _,
    by rw [hpasses.errors, h.errors, hnext.errors_pass], by rw [hpasses.ahead, hnext.ahead_pass]⟩

/-- What is left is handed out by `next?`, one token after the other. -/
theorem drain_eq (c : Cursor) : c.drain =
    match c.next? with
    | (none, c') => ([], c')
    | (some t, c') => (t :: c'.drain.1, c'.drain.2) := by
  unfold next?
  by_cases hfinished : c.finished
  · rw [drain, if_pos hfinished, if_pos hfinished]
  · rw [drain, if_neg hfinished, if_neg hfinished]
    dsimp only
    by_cases ht : c.nextToken.1.kind = .eof
    · rw [dif_pos ht, drain, if_pos (by simp [ht])]
      simp [ht]
    · have hnext : c.nextToken.2.finished = false := by
        rw [finished_nextToken]
        simpa using hfinished
      rw [dif_neg ht, decide_eq_false ht, ← hnext]

theorem At.drain (h : At d source c p) (hends : Scan.EndsOnce (arrivals d source))
    (hp : p.finished = false) : c.drain.1 = (p.ahead (arrivals d source)).map Arrival.token ∧
      At d source c.drain.2 ⟨(arrivals d source).length, true⟩ := by
  -- The induction is on what lies ahead, since every token that is not the last leaves less of it.
  induction hleft : p.ahead (arrivals d source) generalizing c p with
  | nil =>
    obtain ⟨a, more, hnext⟩ := Progress.exists_next hends h.passed
    have hahead := hnext.ahead
    rw [hleft] at hahead
    cases hahead
  | cons a more ih =>
    obtain ⟨b, rest, hnext⟩ := Progress.exists_next hends h.passed
    obtain ⟨rfl, rfl⟩ := List.cons.inj (hleft.symm.trans hnext.ahead)
    obtain ⟨htoken, hat⟩ := h.nextToken hnext
    have hc : ¬ c.finished := by
      rw [h.finished, hp]
      simp
    rw [Cursor.drain, if_neg hc]
    dsimp only
    by_cases hmore : more = []
    · have hlast : p.pass (arrivals d source) = ⟨(arrivals d source).length, false⟩ := by
        rw [← hnext.passed_eq_length_iff.2 hmore, ← hp]
        rfl
      rw [hlast] at hat
      rw [dif_pos (htoken ▸ hnext.kind_eq_eof_iff.2 hmore), hmore, htoken]
      exact ⟨rfl, hat.dialect_eq, hat.source_eq, rfl, hat.coherent, hat.passed, hat.errors, hat.ahead⟩
    · have hrest := hnext.ahead_pass
      rw [if_neg hmore] at hrest
      obtain ⟨hts, hlast⟩ := ih hat hp hrest
      rw [dif_neg (htoken ▸ hnext.kind_eq_eof_iff.not.2 hmore), htoken, List.map_cons, ← hts]
      exact ⟨rfl, hlast⟩

/-- A call hands out what lies ahead of the place, and takes the cursor to the next place. -/
theorem At.call (h : At d source c p) (hends : Scan.EndsOnce (arrivals d source)) (request : Call) :
    (c.call request).1 = (p.call (arrivals d source) request).1 ∧
      At d source (c.call request).2 (p.call (arrivals d source) request).2 := by
  cases request with
  | nextToken =>
    obtain ⟨a, more, hnext⟩ := Progress.exists_next hends h.passed
    obtain ⟨htoken, hat⟩ := h.nextToken hnext
    refine ⟨?_, hat⟩
    show [c.nextToken.1] = ((p.ahead (arrivals d source)).take 1).map Arrival.token
    rw [hnext.ahead, htoken]
    rfl
  | next =>
    dsimp only [Cursor.call, Progress.call]
    unfold next?
    by_cases hfinished : p.finished
    · rw [if_pos (h.finished.trans hfinished), if_pos hfinished]
      exact ⟨rfl, h⟩
    · rw [if_neg (h.finished ▸ hfinished), if_neg hfinished]
      obtain ⟨a, more, hnext⟩ := Progress.exists_next hends h.passed
      obtain ⟨htoken, hat⟩ := h.nextToken hnext
      refine ⟨?_, hat.dialect_eq, hat.source_eq, ?_, hat.coherent, hat.passed, hat.errors, hat.ahead⟩
      · rw [hnext.ahead]
        show [c.nextToken.1] = [a.token]
        rw [htoken]
      · show decide (c.nextToken.1.kind = .eof) = decide _
        rw [htoken]
        exact decide_eq_decide.2 (hnext.kind_eq_eof_iff.trans hnext.passed_eq_length_iff.symm)
  | drain =>
    dsimp only [Cursor.call, Progress.call]
    by_cases hfinished : p.finished
    · have hdrain : c.drain = ([], c) := by
        rw [Cursor.drain, if_pos (h.finished.trans hfinished)]
      rw [if_pos hfinished, hdrain]
      exact ⟨rfl, h⟩
    · rw [if_neg hfinished]
      exact h.drain hends (by simpa using hfinished)
  | tokenize =>
    obtain ⟨hdrain, hat⟩ := h.reset.drain hends rfl
    refine ⟨?_, hat⟩
    show c.reset.drain.1 = (arrivals d source).map Arrival.token
    rw [hdrain, Progress.ahead_start hends]
  | reset => exact ⟨rfl, h.reset⟩

/-- Going over a source character by character gives the tokens and the faults of scanning it line by line. -/
theorem tokenize_start (hd : d.Offered) (source : String) :
    (start d source).tokenize.1 = tokens d source ∧ (start d source).tokenize.2.errors = lexicalErrors d source := by
  obtain ⟨hts, hat⟩ := (at_start d source).call (endsOnce_arrivals hd source) .tokenize
  refine ⟨hts.trans (map_token_arrivals d source), hat.errors.trans ?_⟩
  rw [← flatMap_faults_arrivals]
  unfold Progress.errors
  rw [show (Progress.call _ _ Call.tokenize).2.passed = (arrivals d source).length from rfl, List.take_length]

theorem At.run (h : At d source c p) (hends : Scan.EndsOnce (arrivals d source)) (requests : List Call) :
    c.run requests = p.run (arrivals d source) requests := by
  induction requests generalizing c p with
  | nil => rfl
  | cons request requests ih =>
    obtain ⟨hts, hat⟩ := h.call hends request
    rw [Cursor.run, Progress.run]
    dsimp only
    rw [hts, hat.errors, ih hat]

theorem Progress.errors_prefix (d : Dialect) (source : String) (p : Progress) :
    p.errors (arrivals d source) <+: lexicalErrors d source := by
  rw [← flatMap_faults_arrivals]
  exact (List.take_prefix _ _).flatMap _

theorem Progress.prefix_of_mem_run {answer : List Token × List LexicalError} {requests : List Call}
    (h : answer ∈ p.run (arrivals d source) requests) : answer.2 <+: lexicalErrors d source := by
  induction requests generalizing p with
  | nil => cases h
  | cons request requests ih =>
    rcases List.mem_cons.1 h with rfl | h
    · exact errors_prefix d source _
    · exact ih h

/-- Whatever is asked of a cursor, it answers as a place among the tokens of its source does.  The faults
that are recorded are those met on the way to the tokens that were passed since the last reset. -/
theorem run_follows_tokens (hd : d.Offered) (source : String) :
    (arrivals d source).map Arrival.token = tokens d source ∧
    (arrivals d source).flatMap Arrival.faults = lexicalErrors d source ∧
    (∃ front finish, tokens d source = front ++ [finish] ∧ finish.kind = .eof ∧
      ∀ t ∈ front, t.kind ≠ .eof) ∧
    (∀ requests, (start d source).run requests = ({} : Progress).run (arrivals d source) requests ∧
      ∀ answer ∈ (start d source).run requests, answer.2 <+: lexicalErrors d source) ∧
    (∀ c : Cursor, c.tokenize = c.reset.drain ∧ c.drain =
      match c.next? with
      | (none, c') => ([], c')
      | (some t, c') => (t :: c'.drain.1, c'.drain.2)) := by
  have hends := endsOnce_arrivals hd source
  refine ⟨map_token_arrivals d source, flatMap_faults_arrivals d source, ?_, fun requests => ?_,
    fun c => ⟨rfl, drain_eq c⟩⟩
  · obtain ⟨front, last, harrivals, hlast, hfront⟩ := hends
    refine ⟨front.map Arrival.token, last.token, ?_, hlast, by simpa using hfront⟩
    rw [← map_token_arrivals, harrivals, List.map_append]
    rfl
  · have hrun := (at_start d source).run hends requests
    refine ⟨hrun, fun answer hanswer => ?_⟩
    rw [hrun] at hanswer
    exact Progress.prefix_of_mem_run hanswer

/-- A reset in the middle, tokens asked for behind the end, and the end handed out once by `next?`. -/
theorem run_follows_tokens_of_nameless_tag :
    Dialect.english.Offered ∧
    ((start .english "@\n@ x").run
      [.next, .reset, .nextToken, .drain, .next, .nextToken, .tokenize, .drain]).map
        (fun answer => (answer.1.map Token.kind, answer.2.map fun e => e.location.line)) =
      [([.newline], [1]), ([], []), ([.newline], [1]), ([.text, .eof], [1, 2]), ([], [1, 2]),
        ([.eof], [1, 2]), ([.newline, .text, .eof], [1, 2]), ([], [1, 2])] := by
  have hd : Dialect.english.Offered := .english
  obtain ⟨-, -, -, hrun, -⟩ := run_follows_tokens hd "@\n@ x"
  refine ⟨hd, ?_⟩
  rw [(hrun _).1]
  cbv

end Cursor

end Gherkin
