import Mathlib.Data.List.TakeWhile
import Gherkin.Placeholder

/-!
# Laws of placeholders

What a placeholder is can be said of a text without reading it: a name between brackets that stands
somewhere in the text.  Looking for placeholders finds no overlapping ones, and replacing keys may take
more of the text at once than one placeholder; but both always go on after a `>`, and a `>` ends every
name, so neither can skip the start of what the other one finds.
-/

namespace Gherkin.Placeholder

/-! ## Names -/

/-- What may stand between the brackets of a placeholder. -/
structure IsName (name : List Char) : Prop where
  starts : ∃ c cs, name = c :: cs ∧ ¬ Text.isBlank c
  not_closed : '>' ∉ name
  oneLine : '\n' ∉ name

def Occurs (name cs : List Char) : Prop :=
  IsName name ∧ ∃ before after, cs = before ++ '<' :: (name ++ '>' :: after)

theorem name?_append {name : List Char} (h : IsName name) (rest : List Char) :
    name? (name ++ '>' :: rest) = some (name, rest) := by
  rcases h.starts with ⟨c, cs, rfl, hblank⟩
  have hclose : c ≠ '>' := fun hc => h.not_closed (by simp [hc])
  have hall : ∀ d ∈ c :: cs, (d ≠ '>' && d ≠ '\n') = true := by
    intro d hd
    have hgt : d ≠ '>' := fun heq => h.not_closed (heq ▸ hd)
    have hlf : d ≠ '\n' := fun heq => h.oneLine (heq ▸ hd)
    simp [hgt, hlf]
  have htake : (c :: cs ++ '>' :: rest).takeWhile (fun d => d ≠ '>' && d ≠ '\n') = c :: cs := by
    rw [List.takeWhile_append_of_pos hall]
    simp
  have hdrop : (c :: cs ++ '>' :: rest).dropWhile (fun d => d ≠ '>' && d ≠ '\n') = '>' :: rest := by
    rw [List.dropWhile_append_of_pos hall]
    simp
  unfold name?
  rw [htake, hdrop]
  simp [hblank, hclose]

theorem isName_of_name? {cs name rest : List Char} (h : name? cs = some (name, rest)) :
    IsName name := by
  unfold name? at h
  split at h
  · simp at h
  · rename_i c cs
    split at h
    · simp at h
    · rename_i hc
      split at h
      · rename_i hdrop
        rcases Prod.mk.inj (Option.some.inj h) with ⟨rfl, rfl⟩
        rw [Bool.or_eq_true, not_or] at hc
        have hgt : c ≠ '>' := by simpa using hc.2
        have hlf : c ≠ '\n' := fun heq => hc.1 (by rw [heq]; decide)
        have hmem : ∀ d ∈ (c :: cs).takeWhile (fun d => d ≠ '>' && d ≠ '\n'), d ≠ '>' ∧ d ≠ '\n' :=
          fun d hd => by simpa using List.mem_takeWhile_imp hd
        refine ⟨⟨c, _, List.takeWhile_cons_of_pos (by simp [hgt, hlf]), hc.1⟩, ?_, ?_⟩
        · exact fun hd => (hmem _ hd).1 rfl
        · exact fun hd => (hmem _ hd).2 rfl
      · simp at h

theorem name?_eq_some_iff {cs name rest : List Char} :
    name? cs = some (name, rest) ↔ cs = name ++ '>' :: rest ∧ IsName name := by
  constructor
  · exact fun h => ⟨eq_append_of_name? h, isName_of_name? h⟩
  · rintro ⟨rfl, hname⟩
    exact name?_append hname rest

theorem name?_eq_none_of_isBlank {c : Char} {cs : List Char} (h : Text.isBlank c ∨ c = '>') :
    name? (c :: cs) = none := by
  unfold name?
  rcases h with h | h <;> simp [h]

/-! ## Texts without placeholders -/

/-- No `<` of the text opens a placeholder. -/
def Free (cs : List Char) : Prop := ∀ rest, '<' :: rest <:+ cs → name? rest = none

theorem free_nil : Free [] := fun rest h => absurd (List.suffix_nil.1 h) (by simp)

theorem free_cons {c : Char} {cs : List Char} :
    Free (c :: cs) ↔ (c = '<' → name? cs = none) ∧ Free cs := by
  unfold Free
  constructor
  · exact fun h => ⟨fun hc => h cs (hc ▸ List.suffix_rfl),
      fun rest hrest => h rest (hrest.trans (List.suffix_cons c cs))⟩
  · intro h rest hrest
    rcases List.suffix_cons_iff.1 hrest with heq | hrest
    · rcases List.cons.inj heq with ⟨hc, rfl⟩
      exact h.1 hc.symm
    · exact h.2 rest hrest

theorem Free.append {as bs : List Char} (has : '<' ∉ as) (hbs : Free bs) : Free (as ++ bs) := by
  induction as with
  | nil => exact hbs
  | cons a as ih =>
    rw [List.mem_cons, not_or] at has
    exact free_cons.2 ⟨fun ha => absurd ha.symm has.1, ih has.2⟩

theorem Free.not_occurs {cs : List Char} (h : Free cs) (name : List Char) : ¬ Occurs name cs := by
  rintro ⟨hname, before, after, rfl⟩
  have hfree := h _ (List.suffix_append before _)
  rw [name?_append hname] at hfree
  simp at hfree

/-! ## Looking for placeholders -/

theorem names_of_name? {cs name rest : List Char} (h : name? cs = some (name, rest)) :
    names ('<' :: cs) = name :: names rest := by
  rw [names, if_pos rfl]
  split
  · rename_i h'
    rcases Prod.mk.inj (Option.some.inj (h'.symm.trans h)) with ⟨rfl, rfl⟩
    rfl
  · rename_i h'
    simp [h] at h'

theorem names_cons_of_not_opens {c : Char} {cs : List Char} (h : c = '<' → name? cs = none) :
    names (c :: cs) = names cs := by
  rw [names]
  by_cases hc : c = '<'
  · rw [if_pos hc]
    split
    · rename_i h'
      simp [h hc] at h'
    · rfl
  · rw [if_neg hc]

/-- Whatever stands before a `>`, the placeholders after it are found: no name goes on past a `>`. -/
theorem names_suffix {cs before after : List Char} (h : cs = before ++ '>' :: after) :
    names after <:+ names cs := by
  fun_induction names cs generalizing before with
  | case1 => simp at h
  | case2 cs name rest hname _ ih =>
    refine List.IsSuffix.trans ?_ (List.suffix_cons name _)
    cases before with
    | nil => simp at h
    | cons b before =>
      have hcs : before ++ '>' :: after = name ++ '>' :: rest := by
        rw [← eq_append_of_name? hname]
        exact (List.cons.inj h).2.symm
      -- The name ends at this `>` or at one before it.
      rcases List.append_eq_append_iff.1 hcs with ⟨more, rfl, hmore⟩ | ⟨more, rfl, hmore⟩
      · cases more with
        | nil =>
          obtain ⟨-, rfl⟩ := List.cons.inj hmore
          exact List.suffix_rfl
        | cons m more =>
          rw [List.cons_append] at hmore
          rw [← (List.cons.inj hmore).1] at hname
          exact absurd (by simp) (isName_of_name? hname).not_closed
      · cases more with
        | nil =>
          obtain ⟨-, rfl⟩ := List.cons.inj hmore
          exact List.suffix_rfl
        | cons m more => exact ih (List.cons.inj hmore).2
  | case3 cs hname ih =>
    cases before with
    | nil => simp at h
    | cons b before => exact ih (List.cons.inj h).2
  | case4 c cs hc ih =>
    cases before with
    | nil =>
      obtain ⟨-, rfl⟩ := List.cons.inj h
      exact List.suffix_rfl
    | cons b before => exact ih (List.cons.inj h).2

/-! ## Replacing keys -/

theorem exists_of_lookup? {bindings : List Binding} {cs value rest : List Char}
    (h : lookup? bindings cs = some (value, rest)) :
    ∃ key, (key, value) ∈ bindings ∧ cs = key ++ '>' :: rest := by
  rcases List.exists_of_findSome?_eq_some h with ⟨⟨key, cell⟩, hmem, hkey⟩
  rcases Option.map_eq_some_iff.1 hkey with ⟨rest', hdrop, hpair⟩
  rcases Prod.mk.inj hpair with ⟨rfl, rfl⟩
  refine ⟨key, hmem, ?_⟩
  rw [Text.dropWord?_eq_some_iff.1 hdrop, List.append_assoc, List.singleton_append]

theorem lookup?_append_ne_none {bindings : List Binding} {key value : List Char}
    (h : (key, value) ∈ bindings) (rest : List Char) :
    lookup? bindings (key ++ '>' :: rest) ≠ none := by
  intro hnone
  have hkey := List.findSome?_eq_none_iff.1 hnone _ h
  have hdrop : Text.dropWord? (key ++ ['>']) (key ++ '>' :: rest) = some rest := by
    rw [Text.dropWord?_eq_some_iff, List.append_assoc, List.singleton_append]
  simp [hdrop] at hkey

theorem substitute_nil (bindings : List Binding) : substitute bindings [] = [] := by
  rw [substitute]

theorem substitute_cons {bindings : List Binding} {c : Char} {cs : List Char}
    (h : c = '<' → lookup? bindings cs = none) :
    substitute bindings (c :: cs) = c :: substitute bindings cs := by
  rw [substitute]
  by_cases hc : c = '<'
  · rw [if_pos hc]
    split
    · rename_i h'
      simp [h hc] at h'
    · rfl
  · rw [if_neg hc]

/-! ### Lines that are not closed -/

/-- What is closed on its own line does not stand at the start of a line that is not closed. -/
theorem append_ne_of_not_closed {key after line rest : List Char} (hkey : '\n' ∉ key)
    (hline : '>' ∉ line) (hrest : ∀ c ∈ rest.head?, c = '\n') :
    line ++ rest ≠ key ++ '>' :: after := by
  have hhead : ∀ more, rest ≠ '>' :: more := by
    rintro more rfl
    simpa using hrest '>' rfl
  intro heq
  rcases List.append_eq_append_iff.1 heq with ⟨more, rfl, hmore⟩ | ⟨more, rfl, hmore⟩
  · cases more with
    | nil => exact hhead _ hmore
    | cons c more =>
      rw [hmore] at hrest
      exact hkey (by simp [hrest c rfl])
  · cases more with
    | nil => exact hhead _ hmore.symm
    | cons c more =>
      rw [List.cons_append] at hmore
      exact hline (by rw [← (List.cons.inj hmore).1]; simp)

theorem name?_eq_none_of_not_closed {line rest : List Char} (hline : '>' ∉ line)
    (hrest : ∀ c ∈ rest.head?, c = '\n') : name? (line ++ rest) = none := by
  rw [Option.eq_none_iff_forall_ne_some]
  rintro ⟨name, after⟩ h
  rcases name?_eq_some_iff.1 h with ⟨heq, hname⟩
  exact append_ne_of_not_closed hname.oneLine hline hrest heq

/-- Where no name stands, the text starts with a blank or a `>`, or its line is not closed. -/
theorem cases_of_name?_eq_none {cs : List Char} (h : name? cs = none) :
    (∃ c rest, cs = c :: rest ∧ (Text.isBlank c ∨ c = '>')) ∨
      ∃ line rest, cs = line ++ rest ∧ '>' ∉ line ∧ ∀ c ∈ rest.head?, c = '\n' := by
  cases cs with
  | nil => exact Or.inr ⟨[], [], rfl, by simp, by simp⟩
  | cons c cs =>
    by_cases hc : Text.isBlank c ∨ c = '>'
    · exact Or.inl ⟨c, cs, rfl, hc⟩
    have hline : '>' ∉ (c :: cs).takeWhile fun d => d ≠ '>' && d ≠ '\n' :=
      fun hmem => by simpa using List.mem_takeWhile_imp hmem
    refine Or.inr ⟨_, _, List.takeWhile_append_dropWhile.symm, hline, ?_⟩
    rw [not_or] at hc
    intro d hd
    rcases List.head?_eq_some_iff.1 (Option.mem_def.1 hd) with ⟨after, hafter⟩
    have hstop := List.head?_dropWhile_not (fun d => d ≠ '>' && d ≠ '\n') (c :: cs)
    rw [hafter] at hstop
    have hgt : d ≠ '>' := by
      rintro rfl
      have hopen : ¬ (Text.isBlank c || c = '>') = true := by simpa using hc
      unfold name? at h
      dsimp only at h
      rw [if_neg hopen, hafter] at h
      simp at h
    simpa [hgt] using hstop

section
variable {bindings : List Binding}

theorem substitute_append_of_not_closed (hkey : ∀ b ∈ bindings, '\n' ∉ b.1) {line rest : List Char}
    (hline : '>' ∉ line) (hrest : ∀ c ∈ rest.head?, c = '\n') :
    substitute bindings (line ++ rest) = line ++ substitute bindings rest := by
  induction line with
  | nil => rfl
  | cons c cs ih =>
    have hcs : '>' ∉ cs := fun h => hline (List.mem_cons_of_mem c h)
    have hnone : lookup? bindings (cs ++ rest) = none := by
      rw [Option.eq_none_iff_forall_ne_some]
      rintro ⟨value, after⟩ h
      rcases exists_of_lookup? h with ⟨key, hmem, heq⟩
      exact append_ne_of_not_closed (hkey _ hmem) hcs hrest heq
    rw [List.cons_append, substitute_cons (fun _ => hnone), ih hcs, List.cons_append]

/-- A `<` that opens no placeholder opens none either once the text after it is filled in. -/
theorem name?_substitute_eq_none (hkey : ∀ b ∈ bindings, '\n' ∉ b.1) {cs : List Char}
    (h : name? cs = none) : name? (substitute bindings cs) = none := by
  rcases cases_of_name?_eq_none h with ⟨c, rest, rfl, hc⟩ | ⟨line, rest, rfl, hline, hrest⟩
  · have hopens : c ≠ '<' := by
      rintro rfl
      revert hc
      decide
    rw [substitute_cons fun heq => absurd heq hopens]
    exact name?_eq_none_of_isBlank hc
  · rw [substitute_append_of_not_closed hkey hline hrest]
    refine name?_eq_none_of_not_closed hline ?_
    cases rest with
    | nil =>
      rw [substitute_nil]
      exact hrest
    | cons c rest =>
      have hlf : c = '\n' := hrest c rfl
      rw [substitute_cons fun heq => absurd (hlf.symm.trans heq) (by decide)]
      exact fun d hd => hrest d hd

/-- Where every placeholder of a text is a key, filling it in leaves none. -/
theorem free_substitute (hkey : ∀ b ∈ bindings, '\n' ∉ b.1) (hvalue : ∀ b ∈ bindings, '<' ∉ b.2)
    {cs : List Char} (hnames : ∀ name ∈ names cs, ∃ value, (name, value) ∈ bindings) :
    Free (substitute bindings cs) := by
  fun_induction substitute bindings cs with
  | case1 => exact free_nil
  | case2 cs value rest hlookup _ ih =>
    rcases exists_of_lookup? hlookup with ⟨key, hmem, rfl⟩
    refine Free.append (hvalue _ hmem) (ih fun name hname => hnames name ?_)
    have hsuffix : names rest <:+ names ('<' :: (key ++ '>' :: rest)) :=
      names_suffix (List.cons_append (a := '<')).symm
    exact hsuffix.subset hname
  | case3 cs hlookup ih =>
    -- A name here would be a key.
    have hnone : name? cs = none := by
      rw [Option.eq_none_iff_forall_ne_some]
      rintro ⟨name, rest⟩ h
      rcases hnames name (by rw [names_of_name? h]; exact List.mem_cons_self) with ⟨value, hmem⟩
      rw [eq_append_of_name? h] at hlookup
      exact lookup?_append_ne_none hmem rest hlookup
    rw [names_cons_of_not_opens fun _ => hnone] at hnames
    exact free_cons.2 ⟨fun _ => name?_substitute_eq_none hkey hnone, ih hnames⟩
  | case4 c cs hc ih =>
    rw [names_cons_of_not_opens fun heq => absurd heq hc] at hnames
    exact free_cons.2 ⟨fun heq => absurd heq hc, ih hnames⟩

end

end Gherkin.Placeholder
