import Gherkin.Proofs.Document.Heads
import Gherkin.Proofs.Document.Parts
import Gherkin.Proofs.Printing.Arguments
import Gherkin.Proofs.Printing.Faultless

/-!
# Printed doc strings read back

A doc string that is read from any source, with or without faults and whatever blanks the source has, is
printed as a block that is scanned as one token.  No line of the content closes the block, and none loses
more than the indentation that printing gave it.
-/

namespace Gherkin

/-! ## The doc strings of a document -/

/-- The doc strings among the nodes can be printed. -/
def Fenced (nodes : List Node) : Prop := ∀ d, Node.docString d ∈ nodes → d.Printable

theorem Fenced.append {nodes more : List Node} (h : Fenced nodes) (hmore : Fenced more) :
    Fenced (nodes ++ more) := by
  intro d hd
  rcases List.mem_append.1 hd with hd | hd
  · exact h d hd
  · exact hmore d hd

/-- The doc strings of steps are those of the nodes below them. -/
theorem fenced_steps {ss : List Step} (h : ∀ s ∈ ss, ∀ d ∈ s.docString, d.Printable) :
    Fenced (ss.flatMap (Step.walk fun _ => true)) := by
  intro d hd
  obtain ⟨s, hs, hwalk⟩ := List.mem_flatMap.1 hd
  have hdoc : s.docString = some d := by simpa [Step.walk] using hwalk
  exact h s hs d hdoc

/-- The examples of an outline hold no doc string. -/
theorem fenced_examples (blocks : List Examples) :
    Fenced (blocks.flatMap (Examples.walk fun _ => true)) := by
  intro d hd
  obtain ⟨e, -, hwalk⟩ := List.mem_flatMap.1 hd
  simp [Examples.walk] at hwalk

namespace Reader

variable {source : String} {ts more : List Token} {t : Token}

theorem fenced_of_mem_steps (hts : ts <:+ live (tokens .english source)) :
    Fenced ((steps source.toList ts).value.flatMap (Step.walk fun _ => true)) := by
  apply fenced_steps
  intro s hs
  obtain ⟨k, t, more, hmore, rfl, -⟩ := exists_of_mem_steps hs
  apply printable_of_mem_argument
  have hskip := (skipGaps_suffix _).trans (skipLine_suffix more)
  exact ((hskip.trans (List.suffix_cons t more)).trans hmore).trans hts

theorem fenced_background (hts : t :: more <:+ live (tokens .english source)) :
    Fenced ((background source.toList t more).value.walk fun _ => true) := by
  have hbody : skipHeader source.toList more <:+ live (tokens .english source) :=
    ((skipHeader_suffix _ more).trans (List.suffix_cons t more)).trans hts
  intro d hd
  have hsteps := List.mem_of_ne_of_mem (by simp) hd
  exact fenced_of_mem_steps hbody d hsteps

theorem fenced_child {tags : List String} (hts : t :: more <:+ live (tokens .english source)) :
    Fenced ((child source.toList tags t more).value.walk fun _ => true) := by
  have hbody : skipHeader source.toList more <:+ live (tokens .english source) :=
    ((skipHeader_suffix _ more).trans (List.suffix_cons t more)).trans hts
  have hsteps := fenced_of_mem_steps hbody
  intro d hd
  unfold child at hd
  dsimp only at hd
  split at hd
  · have hbelow := List.mem_of_ne_of_mem (by simp) hd
    exact hsteps.append (fenced_examples _) d hbelow
  · have hbelow := List.mem_of_ne_of_mem (by simp) hd
    exact hsteps d hbelow

/-- Reading on keeps the doc strings of a feature printable, with and without faults. -/
theorem fenced_body {f : Feature} (hf : Fenced (partNodes f))
    (hts : ts <:+ live (tokens .english source)) :
    Fenced (partNodes (body source.toList f ts).1) := by
  apply keeps_body (P := fun g => Fenced (partNodes g)) hf
  intro g us r hus hr hg
  cases hvalue : r.value with
  | none => exact hg
  | some p =>
    obtain ⟨t, more, hmore, hpart⟩ := exists_of_mem_part? hr hvalue
    have hread : t :: more <:+ live (tokens .english source) := hmore.trans (hus.trans hts)
    have hchildren : Fenced (g.children.flatMap (Child.walk fun _ => true)) :=
      fun d hd => hg d (List.mem_append_right _ hd)
    rcases hpart with rfl | rfl
    · -- A background takes the place of the one before it.
      have hnodes : partNodes (g.addAll [.background (background source.toList t more).value]) =
          (background source.toList t more).value.walk (fun _ => true) ++
            g.children.flatMap (Child.walk fun _ => true) := by
        simp [partNodes, Feature.addAll, Feature.add]
      show Fenced (partNodes (g.addAll [_]))
      rw [hnodes]
      exact (fenced_background hread).append hchildren
    · have hnodes : partNodes (g.addAll [.child (child source.toList (tagRun us).tags t more).value]) =
          partNodes g ++ (child source.toList (tagRun us).tags t more).value.walk fun _ => true := by
        simp [partNodes, Feature.addAll, Feature.add]
      show Fenced (partNodes (g.addAll [_]))
      rw [hnodes]
      exact hg.append (fenced_child hread)

end Reader

/-- The doc strings of a document can be printed, whatever else is wrong with its source. -/
theorem fenced_of_parse {source : String} {p : Parsed} (hparse : parse source = .ok p) :
    Fenced p.feature.nodes := by
  obtain ⟨opened, t, more, hsuffix, -, -, hnone, hfeature⟩ := Reader.exists_opened hparse
  have hrest : Reader.skipHeader source.toList more <:+ Reader.live (tokens .english source) :=
    ((Reader.skipHeader_suffix _ more).trans (List.suffix_cons t more)).trans hsuffix
  have hopened : Fenced (Reader.partNodes opened) := by
    rw [hnone]
    exact fun d hd => absurd hd List.not_mem_nil
  intro d hd
  have hpart : Node.docString d ∈ Reader.partNodes p.feature := List.mem_of_ne_of_mem (by simp) hd
  rw [hfeature] at hpart
  exact Reader.fenced_body hopened hrest d hpart

/-! ## The printed block -/

namespace Printed

theorem toList_docString (n : Nat) (d : DocString) : (text (shift n d.print)).toList =
    List.replicate (2 * n) ' ' ++ (d.delimiter.chars ++ ((d.contentType.getD "").toList ++
      '\n' :: (text (docLines n d ++ [(n, d.delimiter.chars)])).toList)) := by
  rw [shift_docString, toList_text_cons, body_opener]
  simp

/-- The block starts with a blank or a delimiter, so that no mark stands before its first line. -/
theorem opening_docString (n : Nat) (d : DocString) :
    Scan.opening (text (shift n d.print)).toList =
      (Location.start, true, (text (shift n d.print)).toList) := by
  rw [toList_docString]
  cases n with
  | zero => cases d.delimiter <;> rfl
  | succ n => rfl

theorem exists_all_docString (n : Nat) {d : DocString} (hd : d.Printable) :
    ∃ stop lineEnd finish, lineEnd.kind = .newline ∧ finish.kind = .eof ∧
      Scan.all .english (text (shift n d.print)) =
        [.token ⟨.docString, d.content, Location.start.past (List.replicate (2 * n) ' '), stop,
          d.contentType⟩, .token lineEnd, .token finish] := by
  obtain ⟨stop, lineEnd, hlineEnd, hlines⟩ :=
    exists_lines_docString n hd (show Location.start.column = 1 from rfl) []
  rw [List.append_nil, List.map_nil, Scan.lines] at hlines
  let final := Location.start.past (text (shift n d.print)).toList
  refine ⟨stop, lineEnd, ⟨.eof, "", final, final.offset, none⟩, hlineEnd, rfl, ?_⟩
  unfold Scan.all
  rw [opening_docString]
  dsimp only
  rw [lines_text (oneLine_docString n hd), hlines]

/-- The token of a printed doc string stands at the delimiter. -/
theorem docString_docString (n : Nat) (d : DocString) (stop : Nat) :
    Reader.docString (text (shift n d.print)).toList
      ⟨.docString, d.content, Location.start.past (List.replicate (2 * n) ' '), stop, d.contentType⟩ = d := by
  have hat : Location.start.At (text (shift n d.print)).toList (text (shift n d.print)).toList := by
    have hopening := Location.at_opening (text (shift n d.print)).toList
    rwa [opening_docString] at hopening
  generalize hblock : (text (shift n d.print)).toList = block at hat ⊢
  have hdelimiter : Location.start.At block (List.replicate (2 * n) ' ' ++ (d.delimiter.chars ++
      ((d.contentType.getD "").toList ++
        '\n' :: (text (docLines n d ++ [(n, d.delimiter.chars)])).toList))) := by
    rwa [← toList_docString, hblock]
  rw [hdelimiter.past.docString]

end Printed

/-- A doc string of any source that is read survives printing: at every level its block is scanned without
a fault as one token, which the end of its line and that of the text follow, and it is read from this
token. -/
theorem tokens_print_docString (source : String) (p : Parsed) (hparse : parse source = .ok p)
    (d : DocString) (hd : Node.docString d ∈ p.feature.nodes) (level : Nat) :
    let block := Printed.text (Printed.shift level d.print)
    lexicalErrors .english block = [] ∧
      ∃ t lineEnd finish, tokens .english block = [t, lineEnd, finish] ∧ t.kind = .docString ∧
        lineEnd.kind = .newline ∧ finish.kind = .eof ∧ t.text = d.content ∧
        t.contentType = d.contentType ∧ Reader.docString block.toList t = d := by
  intro block
  have hprintable := fenced_of_parse hparse d hd
  obtain ⟨stop, lineEnd, finish, hlineEnd, hfinish, hall⟩ :=
    Printed.exists_all_docString level hprintable
  constructor
  · unfold lexicalErrors
    rw [hall]
    rfl
  · refine ⟨⟨.docString, d.content, Location.start.past (List.replicate (2 * level) ' '), stop,
      d.contentType⟩, lineEnd, finish, ?_, rfl, hlineEnd, hfinish, rfl, rfl,
      Printed.docString_docString level d stop⟩
    unfold tokens
    rw [hall]
    rfl

set_option maxRecDepth 16000 in
/-- Delimiters that overlap with backslashes, a blank that is no space, a carriage return inside a line, a
line that is indented less than the delimiter, and a fault behind it all. -/
theorem tokens_print_docString_of_overlaps : ∃ source p d, parse source = .ok p ∧ p.errors ≠ [] ∧
    Node.docString d ∈ p.feature.nodes ∧
    d.content = "\"\"\"\u00a0\n a\\\"\"\"\\\"\n\nb\rc " ∧
    ∃ t lineEnd finish, tokens .english (Printed.text (Printed.shift 1 d.print)) = [t, lineEnd, finish] ∧
      t.text = d.content := by
  let source := "Feature: f\nScenario: s\n  Given x\n    \"\"\" t\n   \\\"\\\"\\\"\u00a0\n" ++
    "     a\\\\\"\\\"\\\"\\\"\n\n    b\rc \n    \"\"\"\r\nThen\n"
  let d : DocString := ⟨"\"\"\"\u00a0\n a\\\"\"\"\\\"\n\nb\rc ", some "t", .doubleQuotes⟩
  let s : Scenario := ⟨"s", none, [], [⟨.given, "x", none, some d, ⟨3, 3, 25⟩⟩,
    ⟨.thus, "", none, none, ⟨10, 1, 90⟩⟩], ⟨2, 1, 11⟩⟩
  let f : Feature := ⟨"f", none, [], none, [.scenario s], ⟨1, 1, 0⟩⟩
  have hparse : parse source = .ok ⟨f, [⟨.order (.stepWithoutText .thus), ⟨10, 1, 90⟩⟩]⟩ := by
    rw [parse_eq]
    cbv
  have hd : Node.docString d ∈ f.nodes := by
    simp [f, s, Feature.nodes, Feature.walk, Child.walk, Scenario.walk, Step.walk]
  obtain ⟨-, t, lineEnd, finish, htokens, -, -, -, htext, -⟩ :=
    tokens_print_docString source _ hparse d hd 1
  exact ⟨source, _, d, hparse, by simp, hd, rfl, t, lineEnd, finish, htokens, htext⟩

end Gherkin
