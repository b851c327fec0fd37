import Gherkin.Document.Printer
import Gherkin.Document.Reader

/-!
# Moving a document

A tree is relocated by applying one function to the locations of all its nodes.  What is printed and what is
checked of an outline do not depend on the locations.
-/

namespace Gherkin

/-- The same place for all, so that trees relocated by it differ in their contents only. -/
def Location.forget : Location → Location := fun _ => .start

/-! ## Trees -/

variable (f : Location → Location)

def Table.relocate (t : Table) : Table := { t with location := f t.location }

def Step.relocate (s : Step) : Step :=
  { s with table := s.table.map (Table.relocate f), location := f s.location }

def Background.relocate (b : Background) : Background :=
  { b with steps := b.steps.map (Step.relocate f), location := f b.location }

def Scenario.relocate (s : Scenario) : Scenario :=
  { s with steps := s.steps.map (Step.relocate f), location := f s.location }

def Examples.relocate (e : Examples) : Examples :=
  { e with table := e.table.map (Table.relocate f), location := f e.location }

def Outline.relocate (o : Outline) : Outline :=
  { o with
    steps := o.steps.map (Step.relocate f)
    examples := o.examples.map (Examples.relocate f)
    location := f o.location }

def Child.relocate : Child → Child
  | .scenario s => .scenario (s.relocate f)
  | .outline o => .outline (o.relocate f)

def Feature.relocate (x : Feature) : Feature :=
  { x with
    background := x.background.map (Background.relocate f)
    children := x.children.map (Child.relocate f)
    location := f x.location }

def ParseError.relocate (e : ParseError) : ParseError := { e with location := f e.location }

def Parsed.relocate (p : Parsed) : Parsed :=
  ⟨p.feature.relocate f, p.errors.map (ParseError.relocate f)⟩

/-! ## Printing -/

theorem Step.print_relocate (s : Step) : (s.relocate f).print = s.print := by
  unfold Step.print Step.relocate
  cases s.table <;> rfl

theorem flatMap_print_relocate (steps : List Step) :
    (steps.map (Step.relocate f)).flatMap Step.print = steps.flatMap Step.print := by
  rw [List.flatMap_map]
  congr 1
  ext s
  rw [Step.print_relocate]

theorem Background.print_relocate (b : Background) : (b.relocate f).print = b.print := by
  unfold Background.print Background.relocate
  simp only [flatMap_print_relocate]

theorem Scenario.print_relocate (s : Scenario) : (s.relocate f).print = s.print := by
  unfold Scenario.print Scenario.relocate
  simp only [flatMap_print_relocate]

theorem Examples.print_relocate (e : Examples) : (e.relocate f).print = e.print := by
  unfold Examples.print Examples.relocate
  cases e.table <;> rfl

theorem Outline.print_relocate (o : Outline) : (o.relocate f).print = o.print := by
  unfold Outline.print Outline.relocate
  rw [flatMap_print_relocate]
  simp only [List.flatMap_map, Examples.print_relocate]

theorem Child.print_relocate (c : Child) : (c.relocate f).print = c.print := by
  cases c with
  | scenario s => exact s.print_relocate f
  | outline o => exact o.print_relocate f

theorem Feature.print_relocate (x : Feature) : (x.relocate f).print = x.print := by
  unfold Feature.print Feature.relocate
  cases x.background <;> simp [List.flatMap_map, Background.print_relocate, Child.print_relocate]

/-! ## Checking an outline -/

theorem Outline.parameters_relocate (o : Outline) : (o.relocate f).parameters = o.parameters := by
  have htexts : ∀ s : Step, (s.relocate f).texts = s.texts := by
    intro s
    unfold Step.texts Step.relocate
    cases s.table <;> rfl
  unfold Outline.parameters Outline.relocate
  simp only [List.flatMap_map, htexts]

theorem Outline.missing_relocate (o : Outline) (e : Examples) :
    (o.relocate f).missing (e.relocate f) = o.missing e := by
  unfold Outline.missing
  rw [Outline.parameters_relocate]
  unfold Examples.relocate
  cases e.table <;> rfl

theorem Reader.checkOutline_relocate (o : Outline) :
    Reader.checkOutline (o.relocate f) = (Reader.checkOutline o).map (ParseError.relocate f) := by
  unfold Reader.checkOutline
  have hempty : (o.relocate f).examples.isEmpty = o.examples.isEmpty := List.isEmpty_map
  rw [hempty]
  by_cases h : o.examples.isEmpty
  · rw [if_pos h, if_pos h]
    rfl
  · rw [if_neg h, if_neg h, List.map_filterMap]
    show (o.examples.map (Examples.relocate f)).filterMap _ = _
    rw [List.filterMap_map]
    congr 1
    ext e : 1
    have htable : (e.relocate f).table.isNone = e.table.isNone := Option.isNone_map
    simp only [Function.comp, htable, Outline.missing_relocate]
    by_cases hnone : e.table.isNone
    · rw [if_pos hnone, if_pos hnone]
      rfl
    · rw [if_neg hnone, if_neg hnone]
      by_cases hmissing : (o.missing e).isEmpty
      · rw [if_pos hmissing, if_pos hmissing]
        rfl
      · rw [if_neg hmissing, if_neg hmissing]
        rfl

end Gherkin
