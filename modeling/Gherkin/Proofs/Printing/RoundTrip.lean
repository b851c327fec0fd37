import Gherkin.Document.Source
import Gherkin.Proofs.Printing.Blocks
import Gherkin.Proofs.Printing.Faultless
import Gherkin.Proofs.Printing.Trees

/-!
# Printing and parsing

A feature that is read without a fault is read again from its printed form, with its locations moved and
nothing else changed.
-/

namespace Gherkin

/-- A printed feature starts with a tag or with its keyword, and with no byte order mark. -/
theorem opening_render {x : Feature} (hx : x.Printable) :
    Scan.opening x.render.toList = (Location.start, true, x.render.toList) := by
  have hlevel : ∀ (c : Char) (cs : List Char) (rest : Printed),
      ∃ more, (Printed.text ((0, c :: cs) :: rest)).toList = c :: more := by
    intro c cs rest
    rw [Printed.toList_text_cons, Printed.body_line (by simp)]
    exact ⟨_, rfl⟩
  have hfirst : ∃ c cs, x.render.toList = c :: cs ∧ c ≠ Scan.byteOrderMark := by
    show ∃ c cs, (Printed.text x.print).toList = c :: cs ∧ _
    unfold Feature.print
    cases htags : x.tags with
    | nil =>
      have hkeyword : Block.feature.name.toList = 'F' :: "eature".toList := rfl
      unfold Printed.header
      rw [hkeyword]
      rcases hlevel 'F' _ _ with ⟨more, hmore⟩
      exact ⟨'F', more, hmore, by decide⟩
    | cons s tags =>
      rcases Printed.exists_intercalate_tags_eq (htags ▸ hx.tags.2) with ⟨cs, hcs⟩
      rw [Printed.tagLine_cons, hcs]
      rcases hlevel '@' cs _ with ⟨more, hmore⟩
      exact ⟨'@', more, hmore, by decide⟩
  rcases hfirst with ⟨c, cs, hcs, hc⟩
  unfold Scan.opening
  rw [hcs]
  exact if_neg hc

theorem spells_render {x : Feature} (hx : x.Printable) :
    Spells x.render.toList x.entries (Reader.live (tokens .english x.render)) := by
  have hprints := @Printed.prints_feature x.render.toList x hx 0
  rw [Printed.shift_zero] at hprints
  have hlines : Text.lines x.render.toList = x.print.map Printed.line :=
    Printed.lines_text hprints.oneLine
  have hopening := opening_render hx
  have htokens : Reader.live (tokens .english x.render) = Printed.tokens .start (x.print ++ []) := by
    unfold tokens Scan.all Printed.tokens
    rw [hopening, List.append_nil]
    dsimp only
    rw [hlines]
  have hat : Location.start.At x.render.toList (Printed.text (x.print ++ [])).toList := by
    have hat := Location.at_opening x.render.toList
    rw [hopening] at hat
    rw [List.append_nil]
    exact hat
  rw [htokens, ← List.append_nil x.entries]
  apply hprints.spells .start [] [] rfl hat
  unfold Printed.tokens
  rw [List.map_nil, Scan.lines]
  rfl

theorem parse_render_eq {x : Feature} (hx : x.Printable) :
    ∃ f, f.relocate .forget = x.relocate .forget ∧
      parse x.render = .ok ⟨f, ParseError.inOrder
        ((lexicalErrors .english x.render).map ParseError.ofLexical)⟩ := by
  rcases Reader.feature_of_spells hx (spells_render hx)
    (Reader.finish x.render.toList (tokens .english x.render)) with
    ⟨t, more, hheader, hfault, f, hf, hbody⟩
  refine ⟨f, hf, ?_⟩
  rw [parse_eq]
  unfold Parsed.ofLive
  dsimp only
  rw [hheader, hfault]
  dsimp only
  rw [hbody]
  rfl

/-- A feature that is read without a fault from a source whose blanks are spaces, tabs and line feeds, and
in whose tables every row has a cell, is read again from its printed form: no fault but of its characters is
found there, the tree is the same up to locations, and it is printed the same. -/
theorem exists_parse_render (source : String) (p : Parsed) (hparse : parse source = .ok p)
    (hclean : p.errors = [])
    (hblanks : ∀ c ∈ source.toList, Text.isBlank c → c = ' ' ∨ c = '\t' ∨ c = '\n')
    (hcells : ∀ data, Node.table data ∈ p.feature.nodes → [] ∉ data.rows) :
    ∃ p', parse p.feature.render = .ok p' ∧ (∀ e ∈ p'.errors, ∃ fault, e.fault = .lexical fault) ∧
      p'.feature.relocate .forget = p.feature.relocate .forget ∧
      p'.feature.render = p.feature.render := by
  have hprintable := printable_of_parse hparse hclean hblanks hcells
  rcases parse_render_eq hprintable with ⟨f, hf, hreparse⟩
  refine ⟨_, hreparse, ?_, hf, ?_⟩
  · intro e he
    rcases List.mem_map.1 (List.mem_mergeSort.1 he) with ⟨fault, -, rfl⟩
    exact ⟨fault.fault, rfl⟩
  · show f.print.text = p.feature.print.text
    rw [← f.print_relocate .forget, hf, Feature.print_relocate]

set_option maxRecDepth 16000 in
/-- An outline that is written as a scenario, a description with a blank line, an indented doc string and an
escaped pipe. -/
theorem exists_parse_render_of_outline :
    ∃ p, parse "Feature: f\n one\n\n two\nScenario: s\nGiven <x>\n```md\n  q\n```\nExamples:\n| x |\n| y\\|z |\n" =
        .ok p ∧ p.errors = [] ∧
      ∃ p', parse p.feature.render = .ok p' ∧ (∀ e ∈ p'.errors, ∃ fault, e.fault = .lexical fault) ∧
        p'.feature.relocate .forget = p.feature.relocate .forget ∧
        p'.feature.render = p.feature.render := by
  have hparse : parse "Feature: f\n one\n\n two\nScenario: s\nGiven <x>\n```md\n  q\n```\nExamples:\n| x |\n| y\\|z |\n" =
      .ok ⟨⟨"f", some "one\n\ntwo", [], none, [.outline ⟨"s", none, [],
        [⟨.given, "<x>", none, some ⟨"  q", some "md", .backticks⟩, ⟨6, 1, 34⟩⟩],
        [⟨none, none, [], some ⟨[["x"], ["y|z"]], ⟨11, 1, 68⟩⟩, ⟨10, 1, 58⟩⟩], ⟨5, 1, 22⟩⟩], ⟨1, 1, 0⟩⟩,
        []⟩ := by
    rw [parse_eq]
    cbv
  refine ⟨_, hparse, rfl, exists_parse_render _ _ hparse rfl (PlainBlanks.of_all (by cbv)) ?_⟩
  intro data hdata
  have htable : data = ⟨[["x"], ["y|z"]], ⟨11, 1, 68⟩⟩ := by
    simpa [Feature.nodes, Feature.walk, Child.walk, Outline.walk, Step.walk, Examples.walk] using hdata
  rw [htable]
  decide

end Gherkin
