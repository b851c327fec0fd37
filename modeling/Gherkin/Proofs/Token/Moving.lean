import Gherkin.Proofs.Token.Coordinates

/-!
# Moving along

A scan knows of what stands before only the location where it starts.  With more lines and more bytes
before it the results are the same, that many lines and bytes further on.
-/

namespace Gherkin

namespace Location

def moved (lines bytes : Nat) (loc : Location) : Location :=
  ⟨loc.line + lines, loc.column, loc.offset + bytes⟩

theorem past_moved (lines bytes : Nat) (loc : Location) (cs : List Char) :
    (loc.moved lines bytes).past cs = (loc.past cs).moved lines bytes := by
  induction cs generalizing loc with
  | nil => rfl
  | cons c cs ih =>
    have hnext : (loc.moved lines bytes).next c = (loc.next c).moved lines bytes := by
      unfold next moved
      by_cases hc : c = '\n'
      · simp [hc, Nat.add_right_comm]
      · simp [hc, Nat.add_right_comm]
    rw [past_cons, past_cons, hnext, ih]

end Location

def Token.moved (lines bytes : Nat) (t : Token) : Token :=
  { t with location := t.location.moved lines bytes, stop := t.stop + bytes }

def LexicalError.moved (lines bytes : Nat) (e : LexicalError) : LexicalError :=
  { e with location := e.location.moved lines bytes }

def Scanned.moved (lines bytes : Nat) : Scanned → Scanned
  | .token t => .token (t.moved lines bytes)
  | .error e => .error (e.moved lines bytes)

theorem Scanned.token?_map {g : Scanned → Scanned} {f : Token → Token}
    (h : ∀ x, (g x).token? = x.token?.map f) (xs : List Scanned) :
    (xs.map g).filterMap Scanned.token? = (xs.filterMap Scanned.token?).map f := by
  rw [List.filterMap_map, List.map_filterMap]
  congr 1
  funext x
  exact h x

theorem Scanned.error?_map {g : Scanned → Scanned} {f : LexicalError → LexicalError}
    (h : ∀ x, (g x).error? = x.error?.map f) (xs : List Scanned) :
    (xs.map g).filterMap Scanned.error? = (xs.filterMap Scanned.error?).map f := by
  rw [List.filterMap_map, List.map_filterMap]
  congr 1
  funext x
  exact h x

theorem Scanned.token?_moved (lines bytes : Nat) (xs : List Scanned) :
    (xs.map (Scanned.moved lines bytes)).filterMap Scanned.token? =
      (xs.filterMap Scanned.token?).map (Token.moved lines bytes) :=
  Scanned.token?_map (fun x => by cases x <;> rfl) xs

theorem Scanned.error?_moved (lines bytes : Nat) (xs : List Scanned) :
    (xs.map (Scanned.moved lines bytes)).filterMap Scanned.error? =
      (xs.filterMap Scanned.error?).map (LexicalError.moved lines bytes) :=
  Scanned.error?_map (fun x => by cases x <;> rfl) xs

namespace Scan

variable (n m : Nat)

theorem ofLexeme_moved (loc : Location) (lx : Lexeme) :
    ofLexeme (loc.moved n m) lx = (ofLexeme loc lx).map (Scanned.moved n m) := by
  unfold ofLexeme
  rw [Location.past_moved]
  cases lx.fault <;> cases lx.token <;> rfl

theorem ofEnding_moved (loc : Location) (ending : Text.LineEnd) :
    ofEnding (loc.moved n m) ending = (ofEnding loc ending).map (Scanned.moved n m) := by
  unfold ofEnding
  rw [Location.past_moved]
  cases ending <;> rfl

theorem ofBody_moved (d : Dialect) (place : Place) (afterBlank : Bool) (loc : Location)
    (body : List Char) :
    ofBody d place afterBlank (loc.moved n m) body =
      (ofBody d place afterBlank loc body).map (Scanned.moved n m) := by
  fun_induction ofBody d place afterBlank loc body with
  | case1 place afterBlank loc body hdrop =>
    rw [ofBody_of_dropWhile_eq_nil hdrop]
    rfl
  | case2 place afterBlank loc body gap c cs hdrop loc' lx shorter ih =>
    rw [ofBody_of_dropWhile_eq_cons hdrop]
    dsimp only
    rw [Location.past_moved, ofLexeme_moved, Location.past_moved, List.map_append]
    exact congrArg _ ih

theorem line_moved (d : Dialect) (loc : Location) (afterBlank : Bool) (l : Text.Line)
    (ls : List Text.Line) :
    line d (loc.moved n m) afterBlank l ls =
      { line d loc afterBlank l ls with
        results := (line d loc afterBlank l ls).results.map (Scanned.moved n m) } := by
  unfold line
  cases hfence : fence? l with
  | none =>
    dsimp only
    rw [ofBody_moved, Location.past_moved, ofEnding_moved, List.map_append]
  | some f =>
    dsimp only
    -- The column, which tells how far the content is indented, is the same.
    cases cut? (fun l => f.delimiter.closes l.body) ls with
    | none =>
      dsimp only
      rw [Location.past_moved, Location.past_moved, ofEnding_moved]
      unfold Fence.token
      rw [Location.past_moved]
      rfl
    | some found =>
      dsimp only
      rw [Location.past_moved, Location.past_moved, ofEnding_moved]
      unfold Fence.token
      rw [Location.past_moved]
      rfl

theorem lines_moved (d : Dialect) (loc : Location) (afterBlank : Bool) (ls : List Text.Line) :
    lines d (loc.moved n m) afterBlank ls = (lines d loc afterBlank ls).map (Scanned.moved n m) := by
  fun_induction lines d loc afterBlank ls with
  | case1 loc afterBlank => rw [lines]; rfl
  | case2 loc afterBlank l ls step fewer ih =>
    rw [lines, line_moved]
    dsimp only
    rw [List.map_append, ← ih, advance, Location.past_moved]
    rfl

end Scan

end Gherkin
