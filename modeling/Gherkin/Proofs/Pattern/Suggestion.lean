import Gherkin.Pattern.Suggestion
import Gherkin.Proofs.Pattern.Matching

/-!
# What a suggested pattern captures

The values of a text are found from left to right.  Where a quoted string starts, it is the next value; or
else the longest decimal that starts there, or else the longest whole number.  The suggestion for a text
compiles to a pattern with one slot for each value, and its captures on the text are the values.
-/

namespace Gherkin

/-! ## Members at the front of a text -/

/-- `w` is a member of `P` whose written form stands at the front of `cs`, before `rest`, and no member
that stands there is longer. -/
structure IsFront (P : List Char → Prop) (written : List Char → List Char) (w cs rest : List Char) :
    Prop where
  member : P w
  split : cs = written w ++ rest
  longest : ∀ w' rest', P w' → cs = written w' ++ rest' → w'.length ≤ w.length

def NoFront (P : List Char → Prop) (written : List Char → List Char) (cs : List Char) : Prop :=
  ∀ w rest, P w → cs ≠ written w ++ rest

/-! ### Signs -/

section
variable {P : List Char → Prop} {c : Char} {cs w rest : List Char}

/-- A member with a sign that stands before a minus sign has it. -/
theorem eq_cons_of_isSigned (hP : ∀ w, P w → ∃ d v, w = d :: v ∧ Text.isDecimalDigit d)
    (hw : IsSigned P w) (h : '-' :: cs = w ++ rest) : ∃ v, w = '-' :: v ∧ P v ∧ cs = v ++ rest := by
  rcases hw with hw | ⟨v, rfl, hv⟩
  · obtain ⟨d, v, rfl, hd⟩ := hP w hw
    rw [← (List.cons.inj h).1] at hd
    exact absurd hd (by decide)
  · exact ⟨v, rfl, hv, (List.cons.inj h).2⟩

theorem member_of_isSigned (hc : c ≠ '-') (hw : IsSigned P w) (h : c :: cs = w ++ rest) : P w := by
  rcases hw with hw | ⟨v, rfl, hv⟩
  · exact hw
  · exact absurd (List.cons.inj h).1 hc

theorem IsFront.minus (hP : ∀ w, P w → ∃ d v, w = d :: v ∧ Text.isDecimalDigit d)
    (h : IsFront P id w cs rest) : IsFront (IsSigned P) id ('-' :: w) ('-' :: cs) rest := by
  refine ⟨Or.inr ⟨w, rfl, h.member⟩, congrArg ('-' :: ·) h.split, fun w' rest' hw' hsplit => ?_⟩
  obtain ⟨v, rfl, hv, hcs⟩ := eq_cons_of_isSigned hP hw' hsplit
  exact Nat.succ_le_succ (h.longest v rest' hv hcs)

theorem NoFront.minus (hP : ∀ w, P w → ∃ d v, w = d :: v ∧ Text.isDecimalDigit d)
    (h : NoFront P id cs) : NoFront (IsSigned P) id ('-' :: cs) := by
  intro w rest hw hsplit
  obtain ⟨v, -, hv, hcs⟩ := eq_cons_of_isSigned hP hw hsplit
  exact h v rest hv hcs

theorem IsFront.plain (hc : c ≠ '-') (h : IsFront P id w (c :: cs) rest) :
    IsFront (IsSigned P) id w (c :: cs) rest :=
  ⟨Or.inl h.member, h.split, fun w' rest' hw' hsplit =>
    h.longest w' rest' (member_of_isSigned hc hw' hsplit) hsplit⟩

theorem NoFront.plain (hc : c ≠ '-') (h : NoFront P id (c :: cs)) :
    NoFront (IsSigned P) id (c :: cs) :=
  fun w rest hw hsplit => h w rest (member_of_isSigned hc hw hsplit) hsplit

end

namespace Suggestion

/-! ## Values -/

/-- The slots that values are found for.  Of several with a member at one place the first counts. -/
def kinds : List Slot := [.string, .float, .int]

/-- The value at the front of `cs` is `w`, of the kind `s`, and `rest` follows it. -/
def Leads (s : Slot) (w cs rest : List Char) : Prop :=
  IsFront s.Holds s.written w cs rest ∧ ∃ before after, kinds = before ++ s :: after ∧
    ∀ s' ∈ before, NoFront s'.Holds s'.written cs

/-- The values of a text with their kinds, from left to right. -/
inductive Finds : List Char → List (Slot × List Char) → Prop
  | nil : Finds [] []
  | value {s : Slot} {c : Char} {w cs rest : List Char} {found : List (Slot × List Char)}
      (h : Leads s w (c :: cs) rest) (hrest : Finds rest found) : Finds (c :: cs) ((s, w) :: found)
  | skip {c : Char} {cs : List Char} {found : List (Slot × List Char)}
      (h : ∀ s ∈ kinds, NoFront s.Holds s.written (c :: cs)) (hcs : Finds cs found) :
      Finds (c :: cs) found

/-! ### The values are determined by the text -/

theorem mem_kinds_of_leads {s : Slot} {w cs rest : List Char} (h : Leads s w cs rest) : s ∈ kinds := by
  obtain ⟨-, before, after, hkinds, -⟩ := h
  rw [hkinds]
  exact List.mem_append_right _ List.mem_cons_self

/-- Only one value leads a text. -/
theorem leads_unique {s s' : Slot} {w w' cs rest rest' : List Char} (h : Leads s w cs rest)
    (h' : Leads s' w' cs rest') : s = s' ∧ w = w' ∧ rest = rest' := by
  obtain ⟨hfront, before, after, hkinds, hbefore⟩ := h
  obtain ⟨hfront', before', after', hkinds', hbefore'⟩ := h'
  have hsame : s = s' := by
    rw [hkinds] at hkinds'
    rcases List.append_eq_append_iff.1 hkinds' with ⟨mid, rfl, hmid⟩ | ⟨mid, rfl, hmid⟩
    · cases mid with
      | nil => exact (List.cons.inj hmid).1
      | cons t mid =>
        -- The kind `s` would come before `s'`, where no member of it may stand.
        rw [← (List.cons.inj hmid).1] at hbefore'
        exact absurd hfront.split (hbefore' s (by simp) w rest hfront.member)
    · cases mid with
      | nil => exact (List.cons.inj hmid).1.symm
      | cons t mid =>
        rw [← (List.cons.inj hmid).1] at hbefore
        exact absurd hfront'.split (hbefore s' (by simp) w' rest' hfront'.member)
  subst hsame
  have hlength : w.length = w'.length :=
    Nat.le_antisymm (hfront'.longest w rest hfront.member hfront.split)
      (hfront.longest w' rest' hfront'.member hfront'.split)
  have hinj := Piece.written_inj_of_length hlength (hfront.split.symm.trans hfront'.split)
  exact ⟨rfl, hinj⟩

theorem finds_unique {cs : List Char} {found other : List (Slot × List Char)} (h : Finds cs found)
    (hother : Finds cs other) : other = found := by
  induction h generalizing other with
  | nil =>
    cases hother
    rfl
  | value h _ ih =>
    cases hother with
    | value h' hrest' =>
      obtain ⟨rfl, rfl, rfl⟩ := leads_unique h h'
      rw [ih hrest']
    | skip h' => exact absurd h.1.split (h' _ (mem_kinds_of_leads h) _ _ h.1.member)
  | skip h _ ih =>
    cases hother with
    | value h' => exact absurd h'.1.split (h _ (mem_kinds_of_leads h') _ _ h'.1.member)
    | skip _ hcs' => exact ih hcs'

/-! ## Digits and numbers -/

/-- Characters of a class at the front of a text reach at most to the first that is not of the class. -/
theorem length_le_of_append_eq {p : Char → Bool} {as bs w rest : List Char}
    (hbs : ∀ c ∈ bs.head?, p c = false) (hw : ∀ c ∈ w, p c) (h : as ++ bs = w ++ rest) :
    w.length ≤ as.length := by
  rcases List.append_eq_append_iff.1 h with ⟨mid, rfl, hmid⟩ | ⟨mid, rfl, -⟩
  · cases mid with
    | nil => simp
    | cons c mid =>
      have hfalse := hbs c (by rw [hmid]; rfl)
      rw [hw c (by simp)] at hfalse
      exact absurd hfalse (by simp)
  · simp

theorem digits?_eq_some {cs ds rest : List Char} (h : digits? cs = some (ds, rest)) :
    cs = ds ++ rest ∧ IsRun Text.isDecimalDigit ds ∧
      ∀ c ∈ rest.head?, Text.isDecimalDigit c = false := by
  unfold digits? at h
  dsimp only at h
  by_cases hempty : (cs.takeWhile Text.isDecimalDigit).isEmpty
  · rw [if_pos hempty] at h
    simp at h
  · rw [if_neg hempty] at h
    obtain ⟨rfl, rfl⟩ := Prod.mk.inj (Option.some.inj h)
    refine ⟨List.takeWhile_append_dropWhile.symm, ⟨by simpa using hempty, ?_⟩, ?_⟩
    · exact fun c hc => List.mem_takeWhile_imp hc
    · intro c hc
      have hhead := List.head?_dropWhile_not Text.isDecimalDigit cs
      rw [hc] at hhead
      simpa using hhead

theorem head_of_digits?_eq_none {cs : List Char} (h : digits? cs = none) :
    ∀ c ∈ cs.head?, Text.isDecimalDigit c = false := by
  intro c hc
  cases cs with
  | nil => simp at hc
  | cons d ds =>
    obtain rfl : d = c := by simpa using hc
    by_contra hd
    simp [digits?, hd] at h

/-- The digits before the point of a decimal are all the digits at the front. -/
theorem eq_of_isDecimal {ds rest w rest' : List Char} (hds : IsRun Text.isDecimalDigit ds)
    (hrest : ∀ c ∈ rest.head?, Text.isDecimalDigit c = false) (hw : IsDecimal w)
    (h : ds ++ rest = w ++ rest') : ∃ fraction, w = ds ++ '.' :: fraction ∧
      IsRun Text.isDecimalDigit fraction ∧ rest = '.' :: (fraction ++ rest') := by
  obtain ⟨whole, fraction, rfl, hwhole, hfraction⟩ := hw
  have hpoint : ∀ c ∈ ('.' :: (fraction ++ rest')).head?, Text.isDecimalDigit c = false := by
    intro c hc
    rw [← Option.some.inj hc]
    decide
  have h' : ds ++ rest = whole ++ '.' :: (fraction ++ rest') := by
    rw [h, List.append_assoc, List.cons_append]
  have hlength : ds.length = whole.length :=
    Nat.le_antisymm (length_le_of_append_eq hpoint hds.2 h'.symm)
      (length_le_of_append_eq hrest hwhole.2 h')
  obtain ⟨rfl, hrest'⟩ := List.append_inj h' hlength
  exact ⟨fraction, rfl, hfraction, hrest'⟩

theorem number?_of_point {cs ds more fraction rest : List Char} (h : digits? cs = some (ds, '.' :: more))
    (hmore : digits? more = some (fraction, rest)) : number? cs = some (.float, rest) := by
  unfold number?
  simp only [h, hmore]

theorem number?_of_digits {cs ds rest : List Char} (h : digits? cs = some (ds, rest))
    (hmore : ∀ more, rest = '.' :: more → digits? more = none) : number? cs = some (.int, rest) := by
  unfold number?
  simp only [h]
  split
  · rename_i more
    rw [hmore more rfl]
  · rfl

/-- The number that is read from the front of a text without a sign: the longest decimal, or else the
longest whole number. -/
theorem number?_spec (cs : List Char) :
    match number? cs with
    | some (s, rest) =>
      (s = .float ∧ ∃ w, IsFront IsDecimal id w cs rest) ∨
        (s = .int ∧ NoFront IsDecimal id cs ∧ ∃ w, IsFront (IsRun Text.isDecimalDigit) id w cs rest)
    | none => NoFront IsDecimal id cs ∧ NoFront (IsRun Text.isDecimalDigit) id cs := by
  cases hdigits : digits? cs with
  | none =>
    have hhead := head_of_digits?_eq_none hdigits
    unfold number?
    rw [hdigits]
    refine ⟨fun w rest hw h => ?_, fun w rest hw h => ?_⟩
    · obtain ⟨d, v, rfl, hd⟩ := exists_digit_of_isDecimal hw
      exact absurd (hhead d (by rw [h]; rfl)) (by simp [hd])
    · obtain ⟨d, v, rfl, hd⟩ := exists_digit_of_isRun hw
      exact absurd (hhead d (by rw [h]; rfl)) (by simp [hd])
  | some found =>
    obtain ⟨ds, rest⟩ := found
    obtain ⟨hcs, hds, hrest⟩ := digits?_eq_some hdigits
    -- Digits have been read; it is a decimal if a point and more digits follow.
    by_cases hmore : ∀ more, rest = '.' :: more → digits? more = none
    · rw [number?_of_digits hdigits hmore]
      refine Or.inr ⟨rfl, fun w rest' hw h => ?_, ds, hds, hcs, fun w' rest' hw' h => ?_⟩
      · -- Without digits behind the point there is no decimal.
        obtain ⟨fraction, -, hfraction, hrest'⟩ := eq_of_isDecimal hds hrest hw (hcs.symm.trans h)
        obtain ⟨d, v, rfl, hd⟩ := exists_digit_of_isRun hfraction
        exact absurd (head_of_digits?_eq_none (hmore _ hrest') d rfl) (by simp [hd])
      · exact length_le_of_append_eq hrest hw'.2 (hcs.symm.trans h)
    · simp only [not_forall] at hmore
      obtain ⟨more, rfl, hmore⟩ := hmore
      obtain ⟨⟨fraction, rest'⟩, hmore⟩ := Option.ne_none_iff_exists'.1 hmore
      rw [number?_of_point hdigits hmore]
      obtain ⟨rfl, hfraction, hrest'⟩ := digits?_eq_some hmore
      refine Or.inl ⟨rfl, ds ++ '.' :: fraction, ⟨ds, fraction, rfl, hds, hfraction⟩, by simp [hcs], ?_⟩
      intro w' rest'' hw' h
      obtain ⟨fraction', rfl, hfraction', htail⟩ := eq_of_isDecimal hds hrest hw' (hcs.symm.trans h)
      have hle := length_le_of_append_eq hrest' hfraction'.2 (List.cons.inj htail).2
      rw [List.length_append, List.length_append, List.length_cons, List.length_cons]
      omega

/-! ## What is read -/

theorem noFront_string {c : Char} {cs : List Char} (hc : c ≠ '"') :
    NoFront Slot.string.Holds Slot.string.written (c :: cs) :=
  fun _ _ _ h => hc (List.cons.inj h).1

/-- A number leads a text that starts with no quote. -/
theorem leads_number {s : Slot} {c : Char} {cs rest : List Char} (hc : c ≠ '"')
    (h : (s = .float ∧ ∃ w, IsFront Slot.float.Holds id w (c :: cs) rest) ∨
      (s = .int ∧ NoFront Slot.float.Holds id (c :: cs) ∧ ∃ w, IsFront Slot.int.Holds id w (c :: cs) rest)) :
    ∃ w, Leads s w (c :: cs) rest := by
  rcases h with ⟨rfl, w, hw⟩ | ⟨rfl, hnone, w, hw⟩
  · refine ⟨w, hw, [.string], [.int], rfl, fun s' hs' => ?_⟩
    rw [List.mem_singleton.1 hs']
    exact noFront_string hc
  · refine ⟨w, hw, [.string, .float], [], rfl, fun s' hs' => ?_⟩
    rcases List.mem_cons.1 hs' with rfl | hs'
    · exact noFront_string hc
    · rw [List.mem_singleton.1 hs']
      exact hnone

theorem noFront_kinds {cs : List Char} (hstring : NoFront Slot.string.Holds Slot.string.written cs)
    (hfloat : NoFront Slot.float.Holds id cs) (hint : NoFront Slot.int.Holds id cs) :
    ∀ s ∈ kinds, NoFront s.Holds s.written cs := by
  intro s hs
  simp only [kinds, List.mem_cons, List.not_mem_nil, or_false] at hs
  rcases hs with rfl | rfl | rfl
  · exact hstring
  · exact hfloat
  · exact hint

/-- No number starts with a quote, and no other quote closes the string. -/
theorem noFront_quote {cs : List Char} (hcs : '"' ∉ cs) :
    ∀ s ∈ kinds, NoFront s.Holds s.written ('"' :: cs) := by
  have hnumber : ∀ P : List Char → Prop, (∀ w, P w → ∃ d v, w = d :: v ∧ Text.isDecimalDigit d) →
      NoFront (IsSigned P) id ('"' :: cs) := by
    refine fun P hP => NoFront.plain (by decide) fun w rest hw h => ?_
    obtain ⟨d, v, rfl, hd⟩ := hP w hw
    rw [← (List.cons.inj h).1] at hd
    exact absurd hd (by decide)
  refine noFront_kinds (fun w rest hw h => ?_) (hnumber _ fun _ => exists_digit_of_isDecimal)
    (hnumber _ fun _ => exists_digit_of_isRun)
  apply hcs
  rw [(List.cons.inj h).2]
  simp

/-- The next quote closes the string. -/
theorem leads_quoted {inner : List Char} (hinner : '"' ∉ inner) (rest : List Char) :
    Leads .string inner ('"' :: (inner ++ '"' :: rest)) rest := by
  refine ⟨⟨hinner, by simp [Slot.written], fun w' rest' hw' h => ?_⟩, [], _, rfl, by simp⟩
  have h' : inner ++ '"' :: rest = w' ++ '"' :: rest' := by
    simpa [Slot.written] using (List.cons.inj h).2
  refine length_le_of_append_eq (p := fun x => decide (x ≠ '"')) (by simp) (fun x hx => ?_) h'
  exact decide_eq_true fun heq => hw' (heq ▸ hx)

/-- What is read from the front of a text is the value there. -/
theorem value?_spec (c : Char) (cs : List Char) :
    match value? c cs with
    | some (s, rest) => ∃ w, Leads s w (c :: cs) rest
    | none => ∀ s ∈ kinds, NoFront s.Holds s.written (c :: cs) := by
  unfold value?
  by_cases hquote : c = '"'
  · rw [if_pos hquote]
    subst hquote
    have hsplit : cs.takeWhile (· ≠ '"') ++ cs.dropWhile (· ≠ '"') = cs :=
      List.takeWhile_append_dropWhile
    have hclean : '"' ∉ cs.takeWhile (· ≠ '"') := fun h => by simpa using List.mem_takeWhile_imp h
    -- A string needs a second quote.
    cases hdrop : cs.dropWhile (· ≠ '"') with
    | nil =>
      rw [hdrop, List.append_nil] at hsplit
      rw [hsplit] at hclean
      exact noFront_quote hclean
    | cons q rest =>
      have hq : q = '"' := by
        have hhead := List.head?_dropWhile_not (fun x => decide (x ≠ '"')) cs
        rw [hdrop] at hhead
        simpa using hhead
      subst hq
      rw [hdrop] at hsplit
      have hleads := leads_quoted hclean rest
      rw [hsplit] at hleads
      exact ⟨_, hleads⟩
  · rw [if_neg hquote]
    have hdecimal : ∀ w, IsDecimal w → ∃ d v, w = d :: v ∧ Text.isDecimalDigit d :=
      fun _ => exists_digit_of_isDecimal
    have hrun : ∀ w, IsRun Text.isDecimalDigit w → ∃ d v, w = d :: v ∧ Text.isDecimalDigit d :=
      fun _ => exists_digit_of_isRun
    -- A sign is read first, and `number?_spec` is about what stands behind it.
    by_cases hminus : c = '-'
    · rw [if_pos hminus]
      subst hminus
      have hnumber := number?_spec cs
      cases hfound : number? cs with
      | none =>
        rw [hfound] at hnumber
        exact noFront_kinds (noFront_string hquote) (hnumber.1.minus hdecimal) (hnumber.2.minus hrun)
      | some found =>
        rw [hfound] at hnumber
        refine leads_number hquote (hnumber.imp ?_ ?_)
        · rintro ⟨hs, w, hw⟩
          exact ⟨hs, _, hw.minus hdecimal⟩
        · rintro ⟨hs, hno, w, hw⟩
          exact ⟨hs, hno.minus hdecimal, _, hw.minus hrun⟩
    · rw [if_neg hminus]
      have hnumber := number?_spec (c :: cs)
      cases hfound : number? (c :: cs) with
      | none =>
        rw [hfound] at hnumber
        exact noFront_kinds (noFront_string hquote) (hnumber.1.plain hminus) (hnumber.2.plain hminus)
      | some found =>
        rw [hfound] at hnumber
        refine leads_number hquote (hnumber.imp ?_ ?_)
        · rintro ⟨hs, w, hw⟩
          exact ⟨hs, w, hw.plain hminus⟩
        · rintro ⟨hs, hno, w, hw⟩
          exact ⟨hs, hno.plain hminus, w, hw.plain hminus⟩

/-! ## The suggestion as a pattern -/

def parts : List Char → List Part
  | [] => []
  | c :: cs =>
    match h : value? c cs with
    | some (s, rest) =>
      have : rest.length ≤ cs.length := length_le_of_value? h
      .slot s :: parts rest
    | none => .literal c :: parts cs
termination_by cs => cs.length

theorem chars_cons (c : Char) (cs : List Char) :
    chars (c :: cs) = match value? c cs with
      | some (s, rest) => s.text.toList ++ chars rest
      | none => escape c ++ chars cs := by
  rw [chars]
  split <;> rename_i h <;> simp only [h]

theorem read_escape (offset : Nat) (c : Char) (cs : List Char) :
    ∃ offset', Part.read offset (escape c ++ cs) = Part.push (.literal c) (Part.read offset' cs) := by
  unfold escape
  by_cases hc : c = '{' || c = '}' || c = '\\'
  · rw [if_pos hc]
    have hstands : (Pattern.Segment.escaped c).Stands cs := trivial
    exact ⟨_, Pattern.read_segment hstands offset⟩
  · rw [if_neg hc]
    simp only [Bool.or_eq_true, decide_eq_true_eq, not_or] at hc
    have hstands : (Pattern.Segment.plain c).Stands cs := ⟨hc.2, hc.1.1, hc.1.2⟩
    exact ⟨_, Pattern.read_segment hstands offset⟩

theorem read_slot_of_mem_kinds {s : Slot} (h : s ∈ kinds) (offset : Nat) (cs : List Char) :
    ∃ offset', Part.read offset (s.text.toList ++ cs) = Part.push (.slot s) (Part.read offset' cs) := by
  simp only [kinds, List.mem_cons, List.not_mem_nil, or_false] at h
  have hname : Pattern.IsSlotName s.name.toList := by
    unfold Pattern.IsSlotName
    rcases h with rfl | rfl | rfl <;> simp [Slot.name]
  have hof : Slot.ofName (String.ofList s.name.toList) = s := by
    refine Slot.ofName_eq_iff.2 ⟨String.ofList_toList.symm, fun hcustom => ?_⟩
    rcases h with rfl | rfl | rfl <;> cases hcustom
  have hstands : (Pattern.Segment.slot s.name.toList).Stands cs := hname
  have htext : s.text.toList = (Pattern.Segment.slot s.name.toList).written := by
    simp [Slot.text, Pattern.Segment.written]
  have hread := Pattern.read_segment hstands offset
  rw [Pattern.Segment.part, hof, ← htext] at hread
  exact ⟨_, hread⟩

theorem read_chars (offset : Nat) (cs : List Char) : Part.read offset (chars cs) = .ok (parts cs) := by
  fun_induction parts cs generalizing offset with
  | case1 =>
    rw [chars, Part.read]
  | case2 c cs s rest h shorter ih =>
    have hspec := value?_spec c cs
    rw [h] at hspec
    obtain ⟨w, hw⟩ := hspec
    obtain ⟨offset', hread⟩ := read_slot_of_mem_kinds (mem_kinds_of_leads hw) offset (chars rest)
    rw [chars_cons, h]
    dsimp only
    rw [hread, ih]
    rfl
  | case3 c cs h ih =>
    obtain ⟨offset', hread⟩ := read_escape offset c (chars cs)
    rw [chars_cons, h]
    dsimp only
    rw [hread, ih]
    rfl

/-- No brace of the suggestion is stray. -/
theorem braceError?_parts (size : Nat) (cs : List Char) : Part.braceError? size 0 (parts cs) = none := by
  fun_induction parts cs with
  | case1 => rfl
  | case2 c cs s rest h shorter ih => exact ih
  | case3 c cs h ih => exact ih

theorem read_suggest (text : String) : Part.read 0 (suggest text).toList = .ok (parts text.toList) := by
  rw [suggest, String.toList_ofList, read_chars]

theorem compile_suggest (text : String) :
    Pattern.compile (suggest text) = .ok (.ofParts (parts text.toList)) :=
  Pattern.compile_eq_ok_iff.2 ⟨_, read_suggest text, braceError?_parts _ _, rfl⟩

/-! ## The captures -/

/-- A slot takes the value that leads the text where the parts after it match what is left. -/
theorem head_ways_of_leads {s : Slot} {w cs rest : List Char} {ps : List Part} {size : Nat} {v : Regex.Way}
    (h : Leads s w cs rest) (hmore : ((Part.body ps).ways size rest).head? = some v) :
    ((Part.body (.slot s :: ps)).ways size cs).head? = some ⟨w :: v.captures, v.rest⟩ := by
  obtain ⟨hfront, -⟩ := h
  obtain ⟨fillings, hfills, hways⟩ := s.exists_fills size cs
  show ((s.before (Part.body ps)).ways size cs).head? = _
  rw [hways]
  have hmem : (w, rest) ∈ fillings := (hfills.mem_iff (w, rest)).2 ⟨hfront.member, hfront.split⟩
  cases fillings with
  | nil => exact absurd hmem List.not_mem_nil
  | cons f fillings =>
    -- No filling is longer than the value, and the first is the longest.
    have hfirst : (w, rest) = f := by
      rcases List.mem_cons.1 hmem with heq | hlater
      · exact heq
      · obtain ⟨hholds, hsplit⟩ := (hfills.mem_iff f).1 List.mem_cons_self
        have hlt : w.length < f.1.length := List.rel_of_pairwise_cons hfills.sorted hlater
        exact absurd (hfront.longest f.1 f.2 hholds hsplit) (Nat.not_le.2 hlt)
    subst hfirst
    obtain ⟨vs, hvs⟩ : ∃ vs, (Part.body ps).ways size rest = v :: vs := by
      rw [List.head?_eq_some_iff] at hmore
      exact hmore
    rw [Slot.waysBehind, List.flatMap_cons, hvs]
    rfl

/-- The parts of the suggestion have the values of the text as slots and as captures. -/
theorem exists_finds (cs : List Char) (size : Nat) : ∃ found, Finds cs found ∧
    (parts cs).filterMap Part.toSlot? = found.map Prod.fst ∧
    ∃ rest, ((Part.body (parts cs)).ways size cs).head? = some ⟨found.map Prod.snd, rest⟩ := by
  fun_induction parts cs with
  | case1 => exact ⟨[], .nil, rfl, [], rfl⟩
  | case2 c cs s rest h shorter ih =>
    have hspec := value?_spec c cs
    rw [h] at hspec
    obtain ⟨w, hw⟩ := hspec
    obtain ⟨found, hfound, hslots, left, hways⟩ := ih
    exact ⟨(s, w) :: found, .value hw hfound, congrArg (s :: ·) hslots, left, head_ways_of_leads hw hways⟩
  | case3 c cs h ih =>
    have hspec := value?_spec c cs
    rw [h] at hspec
    obtain ⟨found, hfound, hslots, left, hways⟩ := ih
    refine ⟨found, .skip hspec hfound, hslots, left, ?_⟩
    have hholds : (CharClass.only c).holds c := decide_eq_true rfl
    show ((Regex.seq (.atom (.one (.only c))) (Part.body (parts cs))).ways size (c :: cs)).head? = _
    rw [Regex.ways_seq_atom, Regex.Atom.behind, Regex.behindOne, if_pos hholds, List.flatMap_singleton]
    exact hways

end Suggestion

end Gherkin
