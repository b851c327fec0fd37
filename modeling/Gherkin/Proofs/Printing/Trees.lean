import Gherkin.Proofs.Printing.Arguments
import Gherkin.Proofs.Printing.Headers

/-!
# Printed trees spell their entries

One lemma for each kind of node, put together from the lemmas of its lines and of its parts.
-/

namespace Gherkin

namespace Printed

variable {source : List Char}

theorem prints_stepTree {x : Step} (hx : x.Printable) (n : Nat) :
    Prints source (shift n x.print) x.entries := by
  have hline : shift n x.print = [(n, x.keyword.name.toList ++ ' ' :: x.text.toList)] ++
      (shift (n + 1) (x.table.toList.flatMap Table.print) ++
        x.docString.toList.flatMap fun d => shift (n + 1) d.print) := by
    unfold Step.print
    rw [← List.singleton_append, shift_append, shift_singleton, shift_indent, shift_append,
      shift_flatMap n.succ x.docString.toList]
  have hentries : x.entries = [.step x.keyword x.text] ++
      (x.table.toList.flatMap Table.entries ++ x.docString.toList.flatMap fun d => [Entry.docString d]) := by
    unfold Step.entries
    rw [List.map_eq_flatMap]
    rfl
  rw [hline, hentries]
  apply (prints_step n x.keyword hx.text hx.nonempty).append
  apply (prints_tables (n + 1) hx.table).append
  apply Prints.flatMap
  intro d hd
  exact prints_docString (n + 1) (hx.docString d (Option.mem_toList.1 hd))

theorem prints_steps (n : Nat) {steps : List Step} (h : ∀ x ∈ steps, x.Printable) :
    Prints source (shift n (steps.flatMap Step.print)) (steps.flatMap Step.entries) := by
  rw [shift_flatMap]
  exact Prints.flatMap fun x hx => prints_stepTree (h x hx) n

theorem isTitle_getD {name : Option String} (h : ∀ s ∈ name, IsTitle s ∧ s ≠ "") :
    IsTitle (name.getD "") := by
  cases name with
  | none => exact ⟨rfl, by simp⟩
  | some s => exact (h s rfl).1

theorem prints_background {x : Background} (hx : x.Printable) (n : Nat) :
    Prints source (shift n x.print) x.entries := by
  unfold Background.print Background.entries
  rw [shift_append, shift_indent, ← List.singleton_append]
  apply (prints_header n .background (isTitle_getD hx.name) hx.description).append
  exact prints_steps (n + 1) hx.steps

theorem prints_scenario {x : Scenario} (hx : x.Printable) (n : Nat) :
    Prints source (shift n x.print) x.entries := by
  unfold Scenario.print Scenario.entries
  rw [List.append_assoc (tagLine _), shift_append, shift_append, shift_indent, List.append_assoc,
    ← List.singleton_append]
  apply (prints_tagLine n hx.tags.2).append
  apply (prints_header n .scenario hx.name hx.description).append
  exact prints_steps (n + 1) hx.steps

theorem prints_examples {x : Examples} (hx : x.Printable) (n : Nat) :
    Prints source (shift n x.print) x.entries := by
  unfold Examples.print Examples.entries
  rw [List.append_assoc (tagLine _), shift_append, shift_append, shift_indent, List.append_assoc,
    ← List.singleton_append]
  apply (prints_tagLine n hx.tags.2).append
  apply (prints_header n .examples (isTitle_getD hx.name) hx.description).append
  exact prints_tables (n + 1) hx.table

theorem prints_outline {x : Outline} (hx : x.Printable) (n : Nat) :
    Prints source (shift n x.print) x.entries := by
  unfold Outline.print Outline.entries
  rw [List.append_assoc (tagLine _), shift_append, shift_append, shift_indent, List.append_assoc,
    ← List.singleton_append, shift_append (n + 1), shift_flatMap (n + 1) x.examples]
  apply (prints_tagLine n hx.tags.2).append
  apply (prints_header n .scenarioOutline hx.name hx.description).append
  apply (prints_steps (n + 1) hx.steps).append
  apply Prints.flatMap
  intro e he
  exact (prints_examples (hx.examples e he) (n + 1)).after_blank

theorem prints_child {x : Child} (hx : x.Printable) (n : Nat) :
    Prints source (shift n x.print) x.entries := by
  cases x with
  | scenario x => exact prints_scenario hx n
  | outline x => exact prints_outline hx n

theorem prints_feature {x : Feature} (hx : x.Printable) (n : Nat) :
    Prints source (shift n x.print) x.entries := by
  unfold Feature.print Feature.entries
  rw [List.append_assoc (tagLine _), shift_append, shift_append, shift_indent, List.append_assoc,
    ← List.singleton_append, shift_append (n + 1), shift_flatMap (n + 1) x.background.toList,
    shift_flatMap (n + 1) x.children]
  apply (prints_tagLine n hx.tags.2).append
  apply (prints_header n .feature hx.name hx.description).append
  apply Prints.append
  · apply Prints.flatMap
    intro b hb
    exact (prints_background (hx.background b (Option.mem_toList.1 hb)) (n + 1)).after_blank
  · apply Prints.flatMap
    intro c hc
    exact (prints_child (hx.children c hc) (n + 1)).after_blank

end Printed

end Gherkin
