import Gherkin.Proofs.Pattern.Cut
import Gherkin.Text.Bytes

/-!
# The language of patterns

A pattern is read from left to right in segments.  It compiles if it can be read to its end, every slot
being well formed, and if no stray brace closes more than stray braces open before it and none stays open.
Otherwise the error points at the first malformed slot, or else at the first stray brace that closes
nothing, or else behind the pattern.
-/

namespace Gherkin

namespace Pattern

inductive Segment where
  /-- A character behind a backslash. -/
  | escaped (c : Char)
  | finalBackslash
  | doubledOpening
  | doubledClosing
  | slot (name : List Char)
  | strayOpening
  | strayClosing
  | plain (c : Char)
deriving DecidableEq, Repr

/-- A name in braces: letters, digits, `_` and `-`, of which neither a digit nor `-` comes first. -/
def IsSlotName (name : List Char) : Prop :=
  (∀ c ∈ name, c.isAlphanum ∨ c = '_' ∨ c = '-') ∧ ∀ c ∈ name.head?, c = '_' ∨ c.isAlpha

namespace Segment

def written : Segment → List Char
  | escaped c => ['\\', c]
  | finalBackslash => ['\\']
  | doubledOpening => ['{', '{']
  | doubledClosing => ['}', '}']
  | slot name => '{' :: (name ++ ['}'])
  | strayOpening => ['{']
  | strayClosing => ['}']
  | plain c => [c]

def Stands (after : List Char) : Segment → Prop
  | finalBackslash => after = []
  | slot name => IsSlotName name
  | strayOpening => ∀ c ∈ after.head?, c ≠ '{' ∧ c ≠ '}' ∧ c ≠ '_' ∧ ¬ c.isAlpha
  | strayClosing => after.head? ≠ some '}'
  | plain c => c ≠ '\\' ∧ c ≠ '{' ∧ c ≠ '}'
  | escaped _ | doubledOpening | doubledClosing => True

def slot? : Segment → Option Slot
  | slot name => some (.ofName (String.ofList name))
  | _ => none

def piece : Segment → Piece
  | slot name => .slot (.ofName (String.ofList name))
  | escaped c | plain c => .char c
  | finalBackslash => .char '\\'
  | doubledOpening | strayOpening => .char '{'
  | doubledClosing | strayClosing => .char '}'

def part (offset : Nat) : Segment → Part
  | slot name => .slot (.ofName (String.ofList name))
  | escaped c | plain c => .literal c
  | finalBackslash => .literal '\\'
  | doubledOpening => .literal '{'
  | doubledClosing => .literal '}'
  | strayOpening => .strayOpening offset
  | strayClosing => .strayClosing offset

theorem piece_part (offset : Nat) (s : Segment) : (s.part offset).piece = s.piece := by
  cases s <;> rfl

theorem slot?_piece (s : Segment) : s.piece.slot? = s.slot? := by
  cases s <;> rfl

end Segment

open Segment

def width (ss : List Segment) : Nat := Text.byteLength (ss.flatMap written)

theorem width_cons (s : Segment) (ss : List Segment) :
    width (s :: ss) = Text.byteLength s.written + width ss := by
  rw [width, List.flatMap_cons, Text.byteLength_append]
  rfl

/-- The segments `ss` are read from the front of a pattern, and `rest` is left. -/
inductive Reads : List Char → List Segment → List Char → Prop
  | nil {cs : List Char} : Reads cs [] cs
  | cons {s : Segment} {after rest : List Char} {ss : List Segment} (hs : s.Stands after)
      (h : Reads after ss rest) : Reads (s.written ++ after) (s :: ss) rest

/-- A brace and a name that no brace closes. -/
inductive Malformed : List Char → PatternFault → Prop
  | unclosed {name : List Char} (hname : IsSlotName name) (hne : name ≠ []) :
      Malformed ('{' :: name) (.unclosedSlot (String.ofList name))
  | invalid {name after : List Char} {c : Char} (hname : IsSlotName name) (hne : name ≠ [])
      (hc : ¬ (c.isAlphanum ∨ c = '_' ∨ c = '-')) (hclose : c ≠ '}') :
      Malformed ('{' :: (name ++ c :: after)) (.invalidSlot (String.ofList name))

/-- No prefix closes more than it opens. -/
def Covered (ss : List Segment) : Prop :=
  ∀ before, before <+: ss → before.count strayClosing ≤ before.count strayOpening

inductive Fails (source : List Char) : PatternError → Prop
  | malformed {ss : List Segment} {rest : List Char} {fault : PatternFault}
      (h : Reads source ss rest) (hrest : Malformed rest fault) : Fails source ⟨fault, width ss⟩
  | unmatched {before more : List Segment} (h : Reads source (before ++ strayClosing :: more) [])
      (hcovered : Covered before)
      (hlevel : before.count strayClosing = before.count strayOpening) :
      Fails source ⟨.unmatchedBrace, width before⟩
  | unbalanced {ss : List Segment} (h : Reads source ss []) (hcovered : Covered ss)
      (hopen : ss.count strayClosing < ss.count strayOpening) :
      Fails source ⟨.unbalancedBraces, Text.byteLength source⟩

/-! ## Slots -/

theorem startsSlot_iff (c : Char) : Part.startsSlot c = true ↔ c = '}' ∨ c = '_' ∨ c.isAlpha := by
  simp [Part.startsSlot, or_assoc]

theorem IsSlotName.all {name : List Char} (h : IsSlotName name) : ∀ c ∈ name, Lexeme.isTagCharacter c :=
  fun c hc => (Lexeme.isTagCharacter_iff c).2 (h.1 c hc)

/-- A name with its closing brace starts as a slot does. -/
theorem IsSlotName.exists_cons {name : List Char} (h : IsSlotName name) (cs : List Char) :
    ∃ c more, name ++ '}' :: cs = c :: more ∧ c ≠ '{' ∧ Part.startsSlot c := by
  cases name with
  | nil => exact ⟨'}', cs, rfl, by decide, by decide⟩
  | cons c name =>
    have hc := h.2 c rfl
    refine ⟨c, name ++ '}' :: cs, rfl, ?_, (startsSlot_iff c).2 (Or.inr hc)⟩
    rintro rfl
    exact absurd hc (by decide)

theorem slot?_of_name {offset : Nat} {name cs : List Char} (h : ∀ c ∈ name, Lexeme.isTagCharacter c) :
    Part.slot? offset (name ++ '}' :: cs) = .ok (name, cs) := by
  have hclose : Lexeme.isTagCharacter '}' = false := by decide
  unfold Part.slot?
  dsimp only
  rw [List.takeWhile_append_of_pos h, List.dropWhile_append_of_pos h,
    List.takeWhile_cons_of_neg (by simp [hclose]), List.dropWhile_cons_of_neg (by simp [hclose]),
    List.append_nil]
  rfl

theorem read_of_slot? {offset : Nat} {c : Char} {cs name rest : List Char} (hne : c ≠ '{')
    (hstart : Part.startsSlot c) (h : Part.slot? offset (c :: cs) = .ok (name, rest)) :
    Part.read offset ('{' :: c :: cs) =
      Part.push (.slot (.ofName (String.ofList name))) (Part.read (offset + 2 + name.length) rest) := by
  rw [Part.read, if_neg hne, if_pos hstart]
  split
  · rename_i found rest' h'
    rw [h] at h'
    obtain ⟨rfl, rfl⟩ := Prod.mk.inj (Except.ok.inj h')
    rfl
  · rename_i e h'
    rw [h] at h'
    cases h'

theorem read_of_slot?_error {offset : Nat} {c : Char} {cs : List Char} {e : PatternError} (hne : c ≠ '{')
    (hstart : Part.startsSlot c) (h : Part.slot? offset (c :: cs) = .error e) :
    Part.read offset ('{' :: c :: cs) = .error e := by
  rw [Part.read, if_neg hne, if_pos hstart]
  split
  · rename_i found rest h'
    rw [h] at h'
    cases h'
  · rename_i e' h'
    rw [h] at h'
    exact congrArg Except.error (Except.error.inj h').symm

/-! ## Reading segments -/

theorem utf8Size_of_isTagCharacter {c : Char} (h : Lexeme.isTagCharacter c) : c.utf8Size = 1 := by
  rw [Char.utf8Size_eq_one_iff]
  rcases (Lexeme.isTagCharacter_iff c).1 h with h | rfl | rfl
  · simp only [Char.isAlphanum, Char.isAlpha, Char.isUpper, Char.isLower, Char.isDigit,
      Bool.or_eq_true, Bool.and_eq_true, decide_eq_true_eq, UInt32.le_iff_toNat_le, ge_iff_le] at h ⊢
    have hz : 'z'.val.toNat = 122 := rfl
    have hZ : 'Z'.val.toNat = 90 := rfl
    have hnine : '9'.val.toNat = 57 := rfl
    have hlast : (127 : UInt32).toNat = 127 := rfl
    omega
  all_goals decide

theorem byteLength_of_name {name : List Char} (h : ∀ c ∈ name, Lexeme.isTagCharacter c) :
    Text.byteLength name = name.length := by
  induction name with
  | nil => rfl
  | cons c name ih =>
    rw [Text.byteLength_cons, utf8Size_of_isTagCharacter (h c List.mem_cons_self),
      ih fun d hd => h d (List.mem_cons_of_mem c hd), List.length_cons]
    omega

theorem read_segment {s : Segment} {after : List Char} (h : s.Stands after) (offset : Nat) :
    Part.read offset (s.written ++ after) =
      Part.push (s.part offset) (Part.read (offset + Text.byteLength s.written) after) := by
  have hbackslash : '\\'.utf8Size = 1 := rfl
  have hopening : '{'.utf8Size = 1 := rfl
  have hclosing : '}'.utf8Size = 1 := rfl
  -- One case for each way of writing a part; what may follow it is in `Stands`.
  cases s with
  | escaped c =>
    have hlength : offset + Text.byteLength (escaped c).written = offset + 1 + c.utf8Size := by
      simp only [written, Text.byteLength_cons, Text.byteLength_nil, hbackslash]
      omega
    show Part.read offset ('\\' :: c :: after) = _
    rw [Part.read, hlength]
    rfl
  | finalBackslash =>
    have hafter : after = [] := h
    rw [hafter]
    show Part.read offset ['\\'] = _
    rw [Part.read, Part.read]
    rfl
  | doubledOpening =>
    show Part.read offset ('{' :: '{' :: after) = _
    rw [Part.read, if_pos rfl]
    rfl
  | doubledClosing =>
    show Part.read offset ('}' :: '}' :: after) = _
    rw [Part.read, if_pos rfl]
    rfl
  | slot name =>
    have hname : IsSlotName name := h
    -- The name is not empty, and its first character tells the brace from a doubled one.
    obtain ⟨c, more, hcons, hne, hstart⟩ := hname.exists_cons after
    have hslot : Part.slot? offset (c :: more) = .ok (name, after) := hcons ▸ slot?_of_name hname.all
    have hwritten : (slot name).written ++ after = '{' :: c :: more := by
      rw [← hcons]
      simp [written]
    have hlength : offset + Text.byteLength (slot name).written = offset + 2 + name.length := by
      simp only [written, Text.byteLength_cons, Text.byteLength_append, Text.byteLength_nil, hopening,
        hclosing, byteLength_of_name hname.all]
      omega
    rw [hwritten, read_of_slot? hne hstart hslot, hlength]
    rfl
  | strayOpening =>
    -- A brace is stray where nothing follows it, or what follows neither doubles it nor starts a name.
    cases after with
    | nil =>
      show Part.read offset ['{'] = _
      rw [Part.read, Part.read]
      rfl
    | cons c cs =>
      obtain ⟨hne, hclose, hunderscore, halpha⟩ := h c rfl
      have hstart : ¬ Part.startsSlot c = true := by
        rw [startsSlot_iff]
        simp [hclose, hunderscore, halpha]
      show Part.read offset ('{' :: c :: cs) = _
      rw [Part.read, if_neg hne, if_neg hstart]
      rfl
  | strayClosing =>
    cases after with
    | nil =>
      show Part.read offset ['}'] = _
      rw [Part.read, Part.read]
      rfl
    | cons c cs =>
      have hne : c ≠ '}' := fun hc => h (congrArg some hc)
      show Part.read offset ('}' :: c :: cs) = _
      rw [Part.read, if_neg hne]
      rfl
  | plain c =>
    obtain ⟨hc, hopen, hclose⟩ := h
    show Part.read offset (c :: after) = _
    rw [Part.read.eq_def]
    split <;> simp_all [part, written]

def parts (offset : Nat) : List Segment → List Part
  | [] => []
  | s :: ss => s.part offset :: parts (offset + Text.byteLength s.written) ss

theorem parts_append (offset : Nat) (ss more : List Segment) :
    parts offset (ss ++ more) = parts offset ss ++ parts (offset + width ss) more := by
  induction ss generalizing offset with
  | nil => rfl
  | cons s ss ih =>
    rw [List.cons_append, parts, ih, width_cons, Nat.add_assoc]
    rfl

theorem map_piece_parts (offset : Nat) (ss : List Segment) :
    (parts offset ss).map Part.piece = ss.map piece := by
  induction ss generalizing offset with
  | nil => rfl
  | cons s ss ih => rw [parts, List.map_cons, List.map_cons, piece_part, ih]

theorem read_of_reads {cs rest : List Char} {ss : List Segment} (h : Reads cs ss rest) (offset : Nat) :
    Part.read offset cs = (Part.read (offset + width ss) rest).map (parts offset ss ++ ·) := by
  induction h generalizing offset with
  | @nil cs =>
    show _ = (Part.read offset cs).map ([] ++ ·)
    cases Part.read offset cs <;> rfl
  | @cons s after rest ss hs _ ih =>
    rw [read_segment hs, ih, width_cons, Nat.add_assoc]
    cases Part.read (offset + (Text.byteLength s.written + width ss)) rest <;> rfl

theorem read_of_reads_all {cs : List Char} {ss : List Segment} (h : Reads cs ss []) (offset : Nat) :
    Part.read offset cs = .ok (parts offset ss) := by
  rw [read_of_reads h, Part.read]
  show Except.ok (parts offset ss ++ []) = _
  rw [List.append_nil]

theorem slot?_of_malformed {cs : List Char} {fault : PatternFault} (h : Malformed ('{' :: cs) fault)
    (offset : Nat) : Part.slot? offset cs = .error ⟨fault, offset⟩ := by
  cases h with
  | unclosed hname =>
    unfold Part.slot?
    dsimp only
    rw [List.takeWhile_eq_self_iff.2 hname.all, List.dropWhile_eq_nil_iff.2 hname.all]
  | @invalid name after c hname _ hc hclose =>
    have hstop : ¬ Lexeme.isTagCharacter c = true := fun h => hc ((Lexeme.isTagCharacter_iff c).1 h)
    unfold Part.slot?
    dsimp only
    rw [List.takeWhile_append_of_pos hname.all, List.dropWhile_append_of_pos hname.all,
      List.takeWhile_cons_of_neg hstop, List.dropWhile_cons_of_neg hstop, List.append_nil]
    split
    · rename_i heq
      exact absurd (List.cons.inj heq).1 hclose
    · rfl
    · rename_i heq
      cases heq

/-- A malformed slot stops reading. -/
theorem read_of_malformed {cs : List Char} {fault : PatternFault} (h : Malformed cs fault) (offset : Nat) :
    Part.read offset cs = .error ⟨fault, offset⟩ := by
  have hhead : ∃ c more, cs = '{' :: c :: more ∧ (c = '_' ∨ c.isAlpha) := by
    cases h with
    | @unclosed name hname hne =>
      obtain ⟨c, name, rfl⟩ := List.exists_cons_of_ne_nil hne
      exact ⟨c, name, rfl, hname.2 c rfl⟩
    | @invalid name after d hname hne =>
      obtain ⟨c, name, rfl⟩ := List.exists_cons_of_ne_nil hne
      exact ⟨c, name ++ d :: after, rfl, hname.2 c rfl⟩
  obtain ⟨c, more, rfl, hc⟩ := hhead
  have hne : c ≠ '{' := by
    rintro rfl
    exact absurd hc (by decide)
  exact read_of_slot?_error hne ((startsSlot_iff c).2 (Or.inr hc)) (slot?_of_malformed h offset)

/-! ## Every pattern can be read -/

/-- A brace that starts a slot stands before a slot or before a malformed one. -/
theorem slot_or_malformed {c : Char} (hc : c = '}' ∨ c = '_' ∨ c.isAlpha) (cs : List Char) :
    (∃ name after, IsSlotName name ∧ c :: cs = name ++ '}' :: after) ∨
      ∃ fault, Malformed ('{' :: c :: cs) fault := by
  by_cases hclose : c = '}'
  · exact Or.inl ⟨[], cs, ⟨by simp, by simp⟩, by rw [hclose]; rfl⟩
  have hfirst : c = '_' ∨ c.isAlpha := hc.resolve_left hclose
  have htag : Lexeme.isTagCharacter c = true := by
    rw [Lexeme.isTagCharacter_iff]
    rcases hfirst with h | h
    · exact Or.inr (Or.inl h)
    · exact Or.inl (by simp [Char.isAlphanum, h])
  -- The name is the longest run of its characters, of which `c` is one.
  obtain ⟨name, hname⟩ : ∃ name, name = (c :: cs).takeWhile Lexeme.isTagCharacter := ⟨_, rfl⟩
  have hne : name ≠ [] := by simp [hname, htag]
  have hvalid : IsSlotName name := by
    constructor
    · intro d hd
      rw [hname] at hd
      exact (Lexeme.isTagCharacter_iff d).1 (List.mem_takeWhile_imp hd)
    · intro d hd
      rw [hname, List.takeWhile_cons_of_pos htag] at hd
      rwa [← Option.some.inj hd]
  have hsplit : c :: cs = name ++ (c :: cs).dropWhile Lexeme.isTagCharacter := by
    rw [hname, List.takeWhile_append_dropWhile]
  cases hdrop : (c :: cs).dropWhile Lexeme.isTagCharacter with
  | nil =>
    rw [hdrop, List.append_nil] at hsplit
    exact Or.inr ⟨_, hsplit ▸ Malformed.unclosed hvalid hne⟩
  | cons d after =>
    rw [hdrop] at hsplit
    by_cases hd : d = '}'
    · exact Or.inl ⟨name, after, hvalid, by rw [hsplit, hd]⟩
    · have hstop : Lexeme.isTagCharacter d = false := by
        have hhead := List.head?_dropWhile_not Lexeme.isTagCharacter (c :: cs)
        rw [hdrop] at hhead
        simpa using hhead
      have hnot : ¬ (d.isAlphanum ∨ d = '_' ∨ d = '-') := by
        rw [← Lexeme.isTagCharacter_iff, hstop]
        simp
      exact Or.inr ⟨_, hsplit ▸ Malformed.invalid hvalid hne hnot hd⟩

/-- A segment or a malformed slot stands at the front of what is left of a pattern. -/
theorem exists_segment (c : Char) (cs : List Char) :
    (∃ (s : Segment) (after : List Char), s.Stands after ∧ c :: cs = s.written ++ after) ∨
      ∃ fault, Malformed (c :: cs) fault := by
  by_cases hbackslash : c = '\\'
  · subst hbackslash
    cases cs with
    | nil => exact Or.inl ⟨finalBackslash, [], rfl, rfl⟩
    | cons d cs => exact Or.inl ⟨escaped d, cs, trivial, rfl⟩
  by_cases hopening : c = '{'
  · subst hopening
    cases cs with
    | nil => exact Or.inl ⟨strayOpening, [], by simp [Stands], rfl⟩
    | cons d cs =>
      by_cases hdoubled : d = '{'
      · exact Or.inl ⟨doubledOpening, cs, trivial, by rw [hdoubled]; rfl⟩
      -- Behind a brace that starts a name the slot is whole or malformed, but it is no text.
      by_cases hstarts : d = '}' ∨ d = '_' ∨ d.isAlpha
      · rcases slot_or_malformed hstarts cs with ⟨name, after, hname, hcs⟩ | hmalformed
        · exact Or.inl ⟨slot name, after, hname, by simp [hcs, written]⟩
        · exact Or.inr hmalformed
      · simp only [not_or] at hstarts
        refine Or.inl ⟨strayOpening, d :: cs, ?_, rfl⟩
        intro x hx
        rw [← Option.some.inj hx]
        exact ⟨hdoubled, hstarts⟩
  by_cases hclosing : c = '}'
  · subst hclosing
    by_cases hdoubled : cs.head? = some '}'
    · obtain ⟨cs, rfl⟩ : ∃ more, cs = '}' :: more := List.head?_eq_some_iff.1 hdoubled
      exact Or.inl ⟨doubledClosing, cs, trivial, rfl⟩
    · exact Or.inl ⟨strayClosing, cs, hdoubled, rfl⟩
  · exact Or.inl ⟨plain c, cs, ⟨hbackslash, hopening, hclosing⟩, rfl⟩

/-- Every pattern is read to its end or to a malformed slot. -/
theorem exists_reads (cs : List Char) :
    ∃ ss rest, Reads cs ss rest ∧ (rest = [] ∨ ∃ fault, Malformed rest fault) := by
  -- Every segment takes a character.
  induction hlength : cs.length using Nat.strong_induction_on generalizing cs with
  | _ n ih =>
    cases cs with
    | nil => exact ⟨[], [], .nil, Or.inl rfl⟩
    | cons c cs =>
      rcases exists_segment c cs with ⟨s, after, hs, hcs⟩ | hmalformed
      · have hpos : 0 < s.written.length := by cases s <;> simp [written]
        have hshorter : after.length < n := by
          rw [← hlength, hcs, List.length_append]
          omega
        obtain ⟨ss, rest, hss, hrest⟩ := ih _ hshorter after rfl
        exact ⟨s :: ss, rest, hcs ▸ Reads.cons hs hss, hrest⟩
      · exact ⟨[], c :: cs, .nil, Or.inr hmalformed⟩

/-! ## Stray braces -/

def CoveredFrom (depth : Nat) (ss : List Segment) : Prop :=
  ∀ before, before <+: ss → before.count strayClosing ≤ depth + before.count strayOpening

theorem covered_iff (ss : List Segment) : Covered ss ↔ CoveredFrom 0 ss := by
  unfold Covered CoveredFrom
  simp only [Nat.zero_add]

/-- Segments that close no more than is open leave their excess to those behind them. -/
theorem braceError?_parts_append {ss : List Segment} {depth : Nat} (h : CoveredFrom depth ss)
    (size offset : Nat) (more : List Part) :
    Part.braceError? size depth (parts offset ss ++ more) =
      Part.braceError? size (depth + ss.count strayOpening - ss.count strayClosing) more := by
  induction ss generalizing depth offset with
  | nil => rfl
  | cons s ss ih =>
    rw [parts, List.cons_append]
    -- Only stray braces count; every other segment leaves the depth as it is.
    cases s with
    | strayOpening =>
      have hss : CoveredFrom (depth + 1) ss := by
        intro before hbefore
        have hle := h (strayOpening :: before) (List.cons_prefix_cons.2 ⟨rfl, hbefore⟩)
        simp only [List.count_cons, beq_iff_eq, reduceCtorEq, if_false, if_true] at hle
        omega
      show Part.braceError? size (depth + 1) _ = _
      rw [ih hss]
      congr 1
      simp only [List.count_cons, beq_iff_eq, reduceCtorEq, if_false, if_true]
      omega
    | strayClosing =>
      -- A closing brace that stands first is covered by the depth.
      have hpos := h [strayClosing] (List.cons_prefix_cons.2 ⟨rfl, List.nil_prefix⟩)
      have hdepth : 0 < depth := by
        simp only [List.count_cons, List.count_nil, beq_iff_eq, reduceCtorEq, if_false, if_true] at hpos
        omega
      obtain ⟨depth, rfl⟩ := Nat.exists_eq_add_one.2 hdepth
      have hss : CoveredFrom depth ss := by
        intro before hbefore
        have hle := h (strayClosing :: before) (List.cons_prefix_cons.2 ⟨rfl, hbefore⟩)
        simp only [List.count_cons, beq_iff_eq, reduceCtorEq, if_false, if_true] at hle
        omega
      show Part.braceError? size depth _ = _
      rw [ih hss]
      congr 1
      simp only [List.count_cons, beq_iff_eq, reduceCtorEq, if_false, if_true]
      omega
    | escaped | finalBackslash | doubledOpening | doubledClosing | slot | plain =>
      have hss : CoveredFrom depth ss := by
        intro before hbefore
        have hle := h (_ :: before) (List.cons_prefix_cons.2 ⟨rfl, hbefore⟩)
        simpa [List.count_cons] using hle
      show Part.braceError? size depth (parts _ ss ++ more) = _
      rw [ih hss]
      simp

/-- Where segments are not covered, one of them is the first that closes nothing. -/
theorem exists_unmatched {ss : List Segment} (h : ¬ Covered ss) :
    ∃ before more, ss = before ++ strayClosing :: more ∧ Covered before ∧
      before.count strayClosing = before.count strayOpening := by
  -- From the back, since it is the shortest prefix that closes too much which is looked for.
  induction ss using List.reverseRecOn with
  | nil =>
    refine absurd ?_ h
    intro before hbefore
    rw [List.prefix_nil.1 hbefore]
    exact Nat.le_refl _
  | append_singleton ss s ih =>
    by_cases hss : Covered ss
    · -- Only the whole closes too much.
      have hwhole : (ss ++ [s]).count strayOpening < (ss ++ [s]).count strayClosing := by
        by_contra hle
        apply h
        intro before hbefore
        rcases List.prefix_concat_iff.1 hbefore with rfl | hbefore
        · omega
        · exact hss before hbefore
      have hprefix := hss ss (List.prefix_refl ss)
      rw [List.count_append, List.count_append] at hwhole
      have hs : s = strayClosing := by
        by_contra hne
        rw [List.count_eq_zero.2 (by simpa using Ne.symm hne : strayClosing ∉ [s])] at hwhole
        omega
      subst hs
      have hone : [strayClosing].count strayClosing = 1 := rfl
      exact ⟨ss, [], rfl, hss, by omega⟩
    · obtain ⟨before, more, rfl, hbefore, hlevel⟩ := ih hss
      exact ⟨before, more ++ [s], by simp, hbefore, hlevel⟩

/-! ## Compiling -/

theorem byteLength_eq_utf8Len (cs : List Char) : Text.byteLength cs = String.utf8Len cs := by
  induction cs with
  | nil => rfl
  | cons c cs ih => rw [Text.byteLength_cons, String.utf8Len_cons, ih, Nat.add_comm]

theorem byteLength_toList (source : String) : Text.byteLength source.toList = source.utf8ByteSize := by
  rw [byteLength_eq_utf8Len, ← String.utf8ByteSize_ofList, String.ofList_toList]

theorem compile_of_balanced {source : String} {ss : List Segment} (h : Reads source.toList ss [])
    (hcovered : Covered ss) (hlevel : ss.count strayClosing = ss.count strayOpening) :
    compile source = .ok (.ofParts (parts 0 ss)) := by
  have hbraces := braceError?_parts_append ((covered_iff ss).1 hcovered) source.utf8ByteSize 0 []
  rw [List.append_nil, hlevel, Nat.add_sub_cancel] at hbraces
  rw [compile, read_of_reads_all h]
  dsimp only
  rw [hbraces]
  rfl

theorem regex_ofParts (ss : List Segment) : (CompiledPattern.ofParts (parts 0 ss)).regex =
    String.ofList ('^' :: (ss.flatMap (fun s => s.piece.regex) ++ ['$'])) := by
  have hparts : (parts 0 ss).flatMap Part.regex = ((parts 0 ss).map Part.piece).flatMap Piece.regex := by
    rw [List.flatMap_map]
    simp only [Part.regex_piece]
  show Part.anchored (parts 0 ss) = _
  rw [Part.anchored, hparts, map_piece_parts, List.flatMap_map]

theorem slots_ofParts (ss : List Segment) :
    (CompiledPattern.ofParts (parts 0 ss)).slots = ss.filterMap Segment.slot? := by
  have hparts : (parts 0 ss).filterMap Part.toSlot? =
      ((parts 0 ss).map Part.piece).filterMap Piece.slot? := by
    rw [List.filterMap_map]
    exact List.filterMap_congr fun part _ => part.slot?_piece.symm
  show (parts 0 ss).filterMap Part.toSlot? = _
  rw [hparts, map_piece_parts, List.filterMap_map]
  exact List.filterMap_congr fun s _ => slot?_piece s

/-- A pattern that is read to its end fails by its stray braces alone. -/
theorem compile_of_braceError? {source : String} {ss : List Segment} {e : PatternError}
    (h : Reads source.toList ss [])
    (hbraces : Part.braceError? source.utf8ByteSize 0 (parts 0 ss) = some e) :
    compile source = .error e := by
  rw [compile, read_of_reads_all h]
  dsimp only
  rw [hbraces]

theorem compile_of_fails {source : String} {e : PatternError} (h : Fails source.toList e) :
    compile source = .error e := by
  cases h with
  | @malformed ss rest fault h hrest =>
    rw [compile, read_of_reads h, read_of_malformed hrest, Nat.zero_add]
    rfl
  | @unmatched before more h hcovered hlevel =>
    have hbraces := braceError?_parts_append ((covered_iff before).1 hcovered) source.utf8ByteSize 0
      (parts (0 + width before) (strayClosing :: more))
    rw [hlevel, Nat.add_sub_cancel, ← parts_append, Nat.zero_add] at hbraces
    exact compile_of_braceError? h hbraces
  | @unbalanced ss h hcovered hopen =>
    have hbraces := braceError?_parts_append ((covered_iff ss).1 hcovered) source.utf8ByteSize 0 []
    obtain ⟨n, hn⟩ : ∃ n, 0 + ss.count strayOpening - ss.count strayClosing = n + 1 :=
      Nat.exists_eq_add_one.2 (by omega)
    rw [List.append_nil, hn] at hbraces
    rw [byteLength_toList]
    exact compile_of_braceError? h hbraces

/-- A pattern can be read with balanced braces, or something is wrong with it. -/
theorem balanced_or_fails (cs : List Char) :
    (∃ ss, Reads cs ss [] ∧ Covered ss ∧ ss.count strayClosing = ss.count strayOpening) ∨
      ∃ e, Fails cs e := by
  obtain ⟨ss, rest, h, rfl | ⟨fault, hfault⟩⟩ := exists_reads cs
  · by_cases hcovered : Covered ss
    · have hle := hcovered ss (List.prefix_refl ss)
      rcases Nat.eq_or_lt_of_le hle with hlevel | hopen
      · exact Or.inl ⟨ss, h, hcovered, hlevel⟩
      · exact Or.inr ⟨_, .unbalanced h hcovered hopen⟩
    · obtain ⟨before, more, rfl, hbefore, hlevel⟩ := exists_unmatched hcovered
      exact Or.inr ⟨_, .unmatched h hbefore hlevel⟩
  · exact Or.inr ⟨_, .malformed h hfault⟩

/-- A pattern compiles exactly if it can be read to its end and its stray braces are balanced, to the anchored
regular expression of its segments and to their slots in order; it does not compile exactly if something is
wrong with it, and the error says what and where. -/
theorem compile_exactly (source : String) :
    (∀ p, compile source = .ok p ↔ ∃ ss, Reads source.toList ss [] ∧ Covered ss ∧
      ss.count strayClosing = ss.count strayOpening ∧
      p.regex = String.ofList ('^' :: (ss.flatMap (fun s => s.piece.regex) ++ ['$'])) ∧
      p.slots = ss.filterMap Segment.slot?) ∧
    ∀ e, compile source = .error e ↔ Fails source.toList e := by
  constructor
  · intro p
    constructor
    · intro h
      rcases balanced_or_fails source.toList with ⟨ss, hss, hcovered, hlevel⟩ | ⟨e, he⟩
      · rw [compile_of_balanced hss hcovered hlevel] at h
        rw [← Except.ok.inj h]
        exact ⟨ss, hss, hcovered, hlevel, regex_ofParts ss, slots_ofParts ss⟩
      · rw [compile_of_fails he] at h
        cases h
    · rintro ⟨ss, hss, hcovered, hlevel, hregex, hslots⟩
      rw [← regex_ofParts] at hregex
      rw [← slots_ofParts] at hslots
      rw [compile_of_balanced hss hcovered hlevel]
      cases p
      exact congrArg Except.ok (CompiledPattern.mk.injEq .. ▸ ⟨hregex.symm, hslots.symm⟩)
  · intro e
    constructor
    · intro h
      rcases balanced_or_fails source.toList with ⟨ss, hss, hcovered, hlevel⟩ | ⟨e', he⟩
      · rw [compile_of_balanced hss hcovered hlevel] at h
        cases h
      · rw [compile_of_fails he] at h
        rwa [← Except.error.inj h]
    · exact compile_of_fails

-- A malformed slot is reported before the stray brace in front of it.
example : compile "\x7d \x7bx y" = .error ⟨.invalidSlot "x", 2⟩ := by cbv

end Pattern

end Gherkin
