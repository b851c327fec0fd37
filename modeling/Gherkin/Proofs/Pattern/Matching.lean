import Gherkin.Proofs.Pattern.Segments

/-!
# Matching a text

A pattern is compiled to the text of a regular expression, which is read again when the expression is built.
What it matches then is what the segments of the pattern stand for: nothing of a literal segment is taken for
an operator or for a group, and nothing is matched before or behind the whole.
-/

namespace Gherkin

namespace Pattern

/-! ## Patterns and their parts -/

theorem body_of_compiled {p : Pattern} {parts : List Part} (h : p.compiled = .ofParts parts) :
    p.matcher.body = Part.expression parts := by
  have hread : Regex.read? p.compiled.regex = some (Part.expression parts) := by
    rw [h]
    exact Part.read?_anchored parts
  exact Option.some.inj (p.matcher.reads.symm.trans hread)

theorem exists_parts (p : Pattern) : ∃ parts, p.slots = parts.filterMap Part.toSlot? ∧
    p.matcher.body = Part.expression parts := by
  obtain ⟨parts, hregex, hslots⟩ := p.compiled.made
  have hcompiled : p.compiled = .ofParts parts := by
    cases hp : p.compiled
    simp_all [CompiledPattern.ofParts]
  exact ⟨parts, hslots, body_of_compiled hcompiled⟩

/-- What is matched, for any pattern: the captures are a cut, and any other cut has an earlier slot that takes
less. -/
theorem exists_pieces (p : Pattern) : ∃ ps, p.slots = ps.filterMap Piece.slot? ∧ ∀ cs,
    match p.matcher.body.captures? cs with
    | some found => Piece.Cuts ps found cs ∧ ∀ other, Piece.Cuts ps other cs →
        other = found ∨ other.map List.length < found.map List.length
    | none => ∀ other, ¬ Piece.Cuts ps other cs := by
  obtain ⟨parts, hslots, hbody⟩ := p.exists_parts
  refine ⟨parts.map Part.piece, ?_, fun cs => ?_⟩
  · rw [hslots, List.filterMap_map]
    exact List.filterMap_congr fun part _ => part.slot?_piece.symm
  · rw [hbody]
    exact Part.captures?_greatest parts cs

/-- The captures of a match are members of the slots, one each. -/
theorem forall₂_of_captures? {p : Pattern} {text : String} {captures : List String}
    (h : p.captures? text = some captures) :
    List.Forall₂ (fun s capture => s.Holds capture.toList) p.slots captures := by
  obtain ⟨ps, hslots, hcuts⟩ := p.exists_pieces
  obtain ⟨found, hfound, rfl⟩ := Option.map_eq_some_iff.1 h
  have hcut := hcuts text.toList
  rw [hfound] at hcut
  rw [hslots, List.forall₂_map_right_iff]
  simpa using hcut.1.1

/-! ## Patterns that can be used -/

def ofParts (source : String) (parts : List Part) : Pattern where
  source := source
  compiled := .ofParts parts
  matcher := ⟨Part.expression parts, Part.read?_anchored parts⟩
  specificity := parts.foldl Specificity.count {}

variable {refusal? : Refusal} {source : String}

theorem compile_eq_ok_iff {compiled : CompiledPattern} : compile source = .ok compiled ↔
    ∃ parts, Part.read 0 source.toList = .ok parts ∧ Part.braceError? source.utf8ByteSize 0 parts = none ∧
      compiled = .ofParts parts := by
  unfold compile
  cases hread : Part.read 0 source.toList with
  | error e => simp
  | ok parts =>
    cases hbraces : Part.braceError? source.utf8ByteSize 0 parts with
    | some e => simp [hbraces]
    | none => simp [hbraces, eq_comm]

theorem parse_of_malformed {e : PatternError} (h : compile source = .error e) :
    parse refusal? source = .error (.malformed e) := by
  unfold parse
  rw [h]
  rfl

theorem parse_of_refused {compiled : CompiledPattern} {message : String} (h : compile source = .ok compiled)
    (hrefused : refusal? compiled.regex = some message) :
    parse refusal? source = .error (.refused message) := by
  unfold parse
  rw [h]
  show (Except.mapError _ (Matcher.build refusal? compiled.regex compiled.known) >>= _) = _
  rw [Matcher.build_of_refused hrefused]
  rfl

/-- A pattern can be used if it compiles and its regular expression is not refused. -/
theorem parse_of_parts {parts : List Part} (hread : Part.read 0 source.toList = .ok parts)
    (h : compile source = .ok (.ofParts parts)) (hbuilt : refusal? (Part.anchored parts) = none) :
    parse refusal? source = .ok (ofParts source parts) := by
  have hbuilt' : refusal? (CompiledPattern.ofParts parts).regex = none := hbuilt
  unfold parse Specificity.ofSource
  rw [h, hread]
  show (Except.mapError _ (Matcher.build refusal? (CompiledPattern.ofParts parts).regex _) >>= _) = _
  rw [Matcher.build_of_not_refused hbuilt']
  simp only [CompiledPattern.ofParts, Part.read?_anchored]
  rfl

theorem parse_eq_ok_iff {p : Pattern} : parse refusal? source = .ok p ↔
    ∃ parts, Part.read 0 source.toList = .ok parts ∧ compile source = .ok (.ofParts parts) ∧
      refusal? (Part.anchored parts) = none ∧ p = ofParts source parts := by
  constructor
  · intro h
    cases hcompile : compile source with
    | error e =>
      rw [parse_of_malformed hcompile] at h
      cases h
    | ok compiled =>
      obtain ⟨parts, hread, -, rfl⟩ := compile_eq_ok_iff.1 hcompile
      cases hrefusal : refusal? (Part.anchored parts) with
      | some message =>
        rw [parse_of_refused hcompile hrefusal] at h
        cases h
      | none =>
        rw [parse_of_parts hread hcompile hrefusal] at h
        exact ⟨parts, hread, rfl, hrefusal, (Except.ok.inj h).symm⟩
  · rintro ⟨parts, hread, hcompile, hbuilt, rfl⟩
    exact parse_of_parts hread hcompile hbuilt

theorem source_of_parse {p : Pattern} (h : parse refusal? source = .ok p) : p.source = source := by
  obtain ⟨parts, -, -, -, rfl⟩ := parse_eq_ok_iff.1 h
  rfl

/-! ## What is matched -/

/-- The captures are members of the slots among the segments, one each, and make up the text with the literal
segments. -/
def Cuts (ss : List Segment) (captures : List String) (text : String) : Prop :=
  Piece.Cuts (ss.map Segment.piece) (captures.map String.toList) text.toList

theorem exists_segments {p : Pattern} (h : parse refusal? source = .ok p) :
    ∃ ss, Reads source.toList ss [] ∧ p.slots = ss.filterMap Segment.slot? ∧
      p.matcher.body = Part.expression (parts 0 ss) := by
  obtain ⟨read, hread, hcompile, -, rfl⟩ := parse_eq_ok_iff.1 h
  rcases balanced_or_fails source.toList with ⟨ss, hss, hcovered, hlevel⟩ | ⟨e, he⟩
  · obtain rfl : parts 0 ss = read := Except.ok.inj ((read_of_reads_all hss 0).symm.trans hread)
    exact ⟨ss, hss, slots_ofParts ss, rfl⟩
  · rw [compile_of_fails he] at hcompile
    cases hcompile

/-- A pattern that can be used is read in segments.  Its regular expression, as the text of it is read, matches
exactly the texts that can be cut under the segments.  The captures are then a cut, one text for each slot, and
of all cuts the one whose lengths are greatest, earlier slots first. -/
theorem captures?_greatest_cut {p : Pattern} (h : parse refusal? source = .ok p) :
    ∃ ss r, Reads source.toList ss [] ∧ p.slots = ss.filterMap Segment.slot? ∧
      Regex.read? p.regex = some r ∧
      ∀ text, p.captures? text = (r.search text.toList).map (·.map String.ofList) ∧
        (p.accepts text ↔ ∃ captures, Cuts ss captures text) ∧
        ∀ captures, p.captures? text = some captures →
          captures.length = p.slots.length ∧ Cuts ss captures text ∧
            ∀ other, Cuts ss other text →
              other = captures ∨ other.map String.length < captures.map String.length := by
  obtain ⟨ss, hss, hslots, hbody⟩ := exists_segments h
  refine ⟨ss, p.matcher.body, hss, hslots, p.matcher.reads, fun text => ⟨?_, ?_⟩⟩
  · rw [captures?, Regex.captures?_eq_search]
  have hgreatest := Part.captures?_greatest (parts 0 ss) text.toList
  rw [map_piece_parts, ← hbody] at hgreatest
  have hlengths : ∀ l : List String, l.map String.length = (l.map String.toList).map List.length := by
    intro l
    simp [String.length_toList]
  unfold accepts captures?
  cases hfound : p.matcher.body.captures? text.toList with
  | none =>
    rw [hfound] at hgreatest
    refine ⟨⟨fun h => absurd h (by simp), fun ⟨captures, hcuts⟩ => ?_⟩, fun _ h => absurd h (by simp)⟩
    exact absurd hcuts (hgreatest _)
  | some found =>
    rw [hfound] at hgreatest
    have hstrings : (found.map String.ofList).map String.toList = found := by simp
    have hcuts : Cuts ss (found.map String.ofList) text := by
      rw [Cuts, hstrings]
      exact hgreatest.1
    refine ⟨⟨fun _ => ⟨_, hcuts⟩, fun _ => rfl⟩, ?_⟩
    rintro captures h
    obtain rfl : found.map String.ofList = captures := by simpa using h
    refine ⟨?_, hcuts, fun other hother => ?_⟩
    · have hlength := hcuts.1.length_eq
      rw [List.filterMap_map, List.filterMap_congr fun s _ => s.slot?_piece, List.length_map] at hlength
      rw [hslots, hlength]
    · rcases hgreatest.2 _ hother with heq | hlt
      · refine .inl (List.map_injective_iff.2 (fun _ _ => String.toList_inj.1) ?_)
        rw [heq, hstrings]
      · exact .inr (by rw [hlengths, hlengths, hstrings]; exact hlt)

theorem parse_eq_of_toOption {p : Pattern} (h : (parse refusal? source).toOption = some p) :
    parse refusal? source = .ok p := by
  cases hparse : parse refusal? source with
  | error failure => simp [hparse, Except.toOption] at h
  | ok q =>
    rw [hparse] at h
    exact congrArg Except.ok (Option.some.inj h)

set_option maxRecDepth 4000 in
/-- The first number takes every digit but the last, which the second one needs.  The point behind the string
stands for itself. -/
theorem captures?_greatest_cut_of_adjacent_numbers :
    ∃ p ss, parse (fun _ => none) "\x7bint\x7d\x7bint\x7d \x7bstring\x7d." = .ok p ∧
      Reads "\x7bint\x7d\x7bint\x7d \x7bstring\x7d.".toList ss [] ∧
      p.captures? "-12\u06634 \"a b\"." = some ["-12\u0663", "4", "a b"] ∧
      ∀ other, Cuts ss other "-12\u06634 \"a b\"." →
        other = ["-12\u0663", "4", "a b"] ∨
          other.map String.length < ["-12\u0663", "4", "a b"].map String.length := by
  have hcaptures : (parse (fun _ => none) "\x7bint\x7d\x7bint\x7d \x7bstring\x7d.").toOption.bind
      (·.captures? "-12\u06634 \"a b\".") = some ["-12\u0663", "4", "a b"] := by cbv
  obtain ⟨p, hp, hfound⟩ := Option.bind_eq_some_iff.1 hcaptures
  have hparse := parse_eq_of_toOption hp
  obtain ⟨ss, r, hss, -, -, hcuts⟩ := captures?_greatest_cut hparse
  exact ⟨p, ss, hparse, hss, hfound, ((hcuts _).2.2 _ hfound).2.2⟩

end Pattern

end Gherkin
