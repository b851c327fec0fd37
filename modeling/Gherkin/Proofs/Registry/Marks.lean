import Gherkin.Registry

/-!
# Marks of use

A look-up marks the definition that wins.  No later look-up answers otherwise because of a mark: what a
registry has a step call is the same in all registries that differ in marks only.
-/

namespace Gherkin

variable {World : Type}

def Definition.unmarked (d : Definition World) : Definition World := { d with used := false }

def Contest.unmarked (c : Contest World) : Contest World := { c with winner := c.winner.unmarked }

namespace Registry

/-- The registry as if none of its definitions had won a step. -/
def unmarked (r : Registry World) : Registry World :=
  { r with definitions := r.definitions.map Definition.unmarked }

/-- What a registry has a step call: the pattern of the winning definition, and its handler with the
arguments of the step. -/
def callFor (r : Registry World) (step : Step) : Except ConversionError (Option (String × Effect World)) :=
  (r.find step.text).1.map (Option.map fun m =>
    (m.winner.pattern.source, m.winner.handler ⟨m.values, step.table, step.docString⟩))

theorem contend_unmarked (best : Option (Contest World)) (d : Definition World) (index : Nat)
    (captures : List String) : contend (best.map Contest.unmarked) d.unmarked index captures =
      (contend best d index captures).unmarked := by
  cases best with
  | none => rfl
  | some b =>
    unfold contend Contest.unmarked Definition.unmarked
    dsimp only [Option.map_some]
    split
    · rfl
    · split <;> rfl

theorem contest_unmarked (text : String) (best : Option (Contest World)) (index : Nat)
    (ds : List (Definition World)) :
    contest text (best.map Contest.unmarked) index (ds.map Definition.unmarked) =
      (contest text best index ds).map Contest.unmarked := by
  induction ds generalizing best index with
  | nil => rfl
  | cons d ds ih =>
    rw [List.map_cons, contest, contest, show d.unmarked.pattern = d.pattern from rfl]
    cases d.pattern.captures? text with
    | none => exact ih best (index + 1)
    | some captures =>
      dsimp only
      rw [contend_unmarked, ← Option.map_some, ih]

theorem resolve_unmarked (r : Registry World) (text : String) :
    r.unmarked.resolve text = (r.resolve text).map Contest.unmarked :=
  contest_unmarked text none 0 r.definitions

theorem callFor_unmarked (r : Registry World) (step : Step) : r.unmarked.callFor step = r.callFor step := by
  unfold callFor find
  rw [resolve_unmarked]
  cases r.resolve step.text with
  | none => rfl
  | some c =>
    dsimp only [Option.map_some]
    rw [show c.unmarked.winner.pattern = c.winner.pattern from rfl,
      show c.unmarked.captures = c.captures from rfl]
    cases Slot.values 0 (c.winner.pattern.slots.zip c.captures) <;> rfl

theorem callFor_congr {r r' : Registry World} (h : r.unmarked = r'.unmarked) (step : Step) :
    r.callFor step = r'.callFor step := by
  rw [← callFor_unmarked, h, callFor_unmarked]

theorem unmarked_markUsed (r : Registry World) (index : Nat) :
    (r.markUsed index).unmarked = r.unmarked := by
  unfold unmarked markUsed
  congr 1
  ext1 i
  rw [List.getElem?_map, List.getElem?_map, List.getElem?_modify]
  cases r.definitions[i]? with
  | none => rfl
  | some d => by_cases hi : index = i <;> simp [hi, Definition.unmarked]

theorem unmarked_find (r : Registry World) (text : String) : (r.find text).2.unmarked = r.unmarked := by
  unfold find
  cases r.resolve text with
  | none => rfl
  | some c => exact unmarked_markUsed r c.index

end Registry

end Gherkin
