import Gherkin.Proofs.Outline.Expansion

/-!
# What is left as written

Looking for placeholders ends a name at the next `>` and lets it hold any `<`, while replacing keys asks
at every `<` for a whole key.  So a placeholder that is no column is left as written unless a column is
written across it, and then it may be gone.
-/

namespace Gherkin

namespace Placeholder

def bracketed (name : List Char) : List Char := '<' :: (name ++ ['>'])

/-- Wherever the key is written in the text, it is written before `word` or after it. -/
def Clears (key before word after : List Char) : Prop :=
  ∀ front back, before ++ word ++ after = front ++ bracketed key ++ back →
    (∃ mid, before = front ++ bracketed key ++ mid) ∨ ∃ mid, front = before ++ word ++ mid

theorem Occurs.exists_eq {name cs : List Char} (h : Occurs name cs) :
    ∃ before after, cs = before ++ bracketed name ++ after := by
  obtain ⟨-, before, after, rfl⟩ := h
  exact ⟨before, after, by simp [bracketed]⟩

/-- What is found when looking for placeholders stands in the text. -/
theorem occurs_of_mem_names {name cs : List Char} (h : name ∈ names cs) : Occurs name cs := by
  fun_induction names cs with
  | case1 => simp at h
  | case2 cs found rest hname _ ih =>
    rcases List.mem_cons.1 h with rfl | h
    · exact ⟨isName_of_name? hname, [], rest, by rw [eq_append_of_name? hname]; rfl⟩
    · obtain ⟨hisName, before, after, hrest⟩ := ih h
      refine ⟨hisName, '<' :: (found ++ '>' :: before), after, ?_⟩
      rw [eq_append_of_name? hname, hrest]
      simp
  | case3 cs hname ih =>
    obtain ⟨hisName, before, after, hcs⟩ := ih h
    exact ⟨hisName, '<' :: before, after, by rw [hcs]; rfl⟩
  | case4 c cs hc ih =>
    obtain ⟨hisName, before, after, hcs⟩ := ih h
    exact ⟨hisName, c :: before, after, by rw [hcs]; rfl⟩

/-! ## Places that no key goes across -/

section
variable {key before word after : List Char}

/-- A key that clears a place also clears it where less text stands before. -/
theorem Clears.of_append (as : List Char) (h : Clears key (as ++ before) [] after) :
    Clears key before [] after := by
  intro front back heq
  rcases h (as ++ front) back (by rw [List.append_assoc as, List.append_assoc as, heq]; simp) with
    ⟨mid, hmid⟩ | ⟨mid, hmid⟩
  · have hsame : as ++ before = as ++ (front ++ bracketed key ++ mid) := by simp [hmid]
    exact Or.inl ⟨mid, List.append_cancel_left hsame⟩
  · have hsame : as ++ front = as ++ (before ++ [] ++ mid) := by simp [hmid]
    exact Or.inr ⟨mid, List.append_cancel_left hsame⟩

theorem Clears.start (h : Clears key before word after) : Clears key before [] (word ++ after) := by
  intro front back heq
  rcases h front back (by rw [← heq]; simp) with hbefore | ⟨mid, hmid⟩
  · exact Or.inl hbefore
  · exact Or.inr ⟨word ++ mid, by rw [hmid]; simp⟩

/-- No text holds a key behind itself. -/
theorem ne_append_bracketed (front mid : List Char) : before ≠ before ++ front ++ bracketed key ++ mid := by
  intro h
  have hlength := congrArg List.length h
  simp [bracketed] at hlength

theorem Clears.stop (h : Clears key before word after) : Clears key word [] after := by
  intro front back heq
  rcases h (before ++ front) back (by rw [List.append_assoc before, ← List.append_nil word, heq]; simp) with
    ⟨mid, hmid⟩ | ⟨mid, hmid⟩
  · exact absurd hmid (ne_append_bracketed front mid)
  · have hsame : before ++ front = before ++ (word ++ [] ++ mid) := by simp [hmid]
    exact Or.inr ⟨mid, List.append_cancel_left hsame⟩

/-- No key is written inside of what it clears. -/
theorem Clears.not_isInfix (h : Clears key before word after) : ¬ bracketed key <:+: word := by
  rintro ⟨front, back, rfl⟩
  rcases h (before ++ front) (back ++ after) (by simp) with ⟨mid, hmid⟩ | ⟨mid, hmid⟩
  · exact ne_append_bracketed front mid hmid
  · have hlength := congrArg List.length hmid
    simp [bracketed] at hlength

end

/-! ## Replacing keys in parts of a text -/

section
variable {bindings : List Binding} {as bs before word after : List Char}

theorem dropWord?_append_of_clears {key : List Char} (h : Clears key ('<' :: as) [] bs) :
    Text.dropWord? (key ++ ['>']) (as ++ bs) =
      (Text.dropWord? (key ++ ['>']) as).map (· ++ bs) := by
  cases hleft : Text.dropWord? (key ++ ['>']) as with
  | some rest =>
    rw [Option.map_some, Text.dropWord?_eq_some_iff, Text.dropWord?_eq_some_iff.1 hleft, List.append_assoc]
  | none =>
    rw [Option.map_none, Option.eq_none_iff_forall_ne_some]
    intro rest hrest
    have heq := Text.dropWord?_eq_some_iff.1 hrest
    rcases h [] rest (by simp [heq, bracketed]) with ⟨mid, hmid⟩ | ⟨mid, hmid⟩
    · have has : as = key ++ ['>'] ++ mid := by simpa [bracketed] using hmid
      rw [Text.dropWord?_eq_some_iff.2 has] at hleft
      simp at hleft
    · simp at hmid

theorem lookup?_append (h : ∀ b ∈ bindings, Clears b.1 ('<' :: as) [] bs) :
    lookup? bindings (as ++ bs) = (lookup? bindings as).map (Prod.map id (· ++ bs)) := by
  unfold lookup?
  induction bindings with
  | nil => rfl
  | cons b bindings ih =>
    have hhead := dropWord?_append_of_clears (h b List.mem_cons_self)
    rw [List.findSome?_cons, List.findSome?_cons]
    dsimp only
    rw [hhead]
    cases Text.dropWord? (b.1 ++ ['>']) as with
    | some rest => rfl
    | none => exact ih fun b' hb' => h b' (List.mem_cons_of_mem b hb')

theorem substitute_of_lookup? {cs value rest : List Char} (h : lookup? bindings cs = some (value, rest)) :
    substitute bindings ('<' :: cs) = value ++ substitute bindings rest := by
  rw [substitute, if_pos rfl]
  split
  · rename_i h'
    obtain ⟨rfl, rfl⟩ := Prod.mk.inj (Option.some.inj (h'.symm.trans h))
    rfl
  · rename_i h'
    simp [h] at h'

/-- Where no key goes across, a text is filled in part by part. -/
theorem substitute_append (h : ∀ b ∈ bindings, Clears b.1 as [] bs) :
    substitute bindings (as ++ bs) = substitute bindings as ++ substitute bindings bs := by
  fun_induction substitute bindings as with
  | case1 => rfl
  | case2 cs value rest hlookup _ ih =>
    obtain ⟨key, -, rfl⟩ := exists_of_lookup? hlookup
    have hrest : ∀ b ∈ bindings, Clears b.1 rest [] bs := by
      intro b hb
      apply Clears.of_append ('<' :: (key ++ ['>']))
      have hb' := h b hb
      rwa [show '<' :: (key ++ '>' :: rest) = '<' :: (key ++ ['>']) ++ rest by simp] at hb'
    have hboth : lookup? bindings (key ++ '>' :: rest ++ bs) = some (value, rest ++ bs) := by
      rw [lookup?_append h, hlookup]
      rfl
    rw [List.cons_append, substitute_of_lookup? hboth, ih hrest, List.append_assoc]
  | case3 cs hlookup ih =>
    have hboth : lookup? bindings (cs ++ bs) = none := by
      rw [lookup?_append h, hlookup]
      rfl
    rw [List.cons_append, substitute_cons fun _ => hboth, List.cons_append,
      ih fun b hb => Clears.of_append ['<'] (h b hb)]
  | case4 c cs hc ih =>
    rw [List.cons_append, substitute_cons fun heq => absurd heq hc, List.cons_append,
      ih fun b hb => Clears.of_append [c] (h b hb)]

/-- A text in which no key is written stays as it is. -/
theorem substitute_eq_self (h : ∀ b ∈ bindings, ¬ bracketed b.1 <:+: word) :
    substitute bindings word = word := by
  fun_induction substitute bindings word with
  | case1 => rfl
  | case2 cs value rest hlookup =>
    obtain ⟨key, hmem, rfl⟩ := exists_of_lookup? hlookup
    exact absurd ⟨[], rest, by simp [bracketed]⟩ (h _ hmem)
  | case3 cs _ ih => rw [ih fun b hb hinfix => h b hb (List.infix_cons hinfix)]
  | case4 c cs _ ih => rw [ih fun b hb hinfix => h b hb (List.infix_cons hinfix)]

/-- What every key clears is left as written between what is filled in before it and after it. -/
theorem substitute_of_clears (h : ∀ b ∈ bindings, Clears b.1 before word after) :
    substitute bindings (before ++ word ++ after) =
      substitute bindings before ++ word ++ substitute bindings after := by
  rw [List.append_assoc, substitute_append fun b hb => (h b hb).start,
    substitute_append fun b hb => (h b hb).stop, substitute_eq_self fun b hb => (h b hb).not_isInfix,
    List.append_assoc]

end

theorem takeWhile_closed {name : List Char} (h : '>' ∉ name) (rest : List Char) :
    (name ++ '>' :: rest).takeWhile (· ≠ '>') = name := by
  have hall : ∀ c ∈ name, decide (c ≠ '>') = true := fun c hc => decide_eq_true fun heq => h (heq ▸ hc)
  rw [List.takeWhile_append_of_pos hall, List.takeWhile_cons_of_neg (by decide), List.append_nil]

/-- Behind a name without brackets another one starts after it, or the two are the same. -/
theorem cases_of_bracketed_append_eq {name key mid after back : List Char}
    (hname : '<' ∉ name ∧ '>' ∉ name) (hkey : '>' ∉ key)
    (h : bracketed name ++ after = mid ++ bracketed key ++ back) :
    name = key ∨ ∃ more, mid = bracketed name ++ more := by
  cases mid with
  | nil =>
    have hrest : name ++ '>' :: after = key ++ '>' :: back := by simpa [bracketed] using h
    exact Or.inl (by rw [← takeWhile_closed hname.2 after, hrest, takeWhile_closed hkey])
  | cons c mid =>
    have hrest : name ++ '>' :: after = mid ++ '<' :: (key ++ '>' :: back) := by
      simpa [bracketed] using (List.cons.inj h).2
    have hc : '<' = c := (List.cons.inj h).1
    rcases List.append_eq_append_iff.1 hrest with ⟨more, hmid, hmore⟩ | ⟨more, hmid, hmore⟩
    · cases more with
      | nil => simp at hmore
      | cons d more =>
        have hd : '>' = d := (List.cons.inj hmore).1
        exact Or.inr ⟨more, by rw [hmid, ← hc, ← hd]; simp [bracketed]⟩
    · cases more with
      | nil => simp at hmore
      | cons d more =>
        have hd : '<' = d := (List.cons.inj hmore).1
        exact absurd (by rw [hmid, ← hd]; simp) hname.1

/-- A key without brackets clears every other name without an opening bracket. -/
theorem clears_of_not_mem {key name : List Char} (hkey : '<' ∉ key ∧ '>' ∉ key)
    (hname : '<' ∉ name ∧ '>' ∉ name) (hne : key ≠ name) (before after : List Char) :
    Clears key before (bracketed name) after := by
  intro front back heq
  rw [List.append_assoc, List.append_assoc] at heq
  rcases List.append_eq_append_iff.1 heq with ⟨mid, hfront, hmid⟩ | ⟨mid, hbefore, hmid⟩
  · rw [← List.append_assoc] at hmid
    rcases cases_of_bracketed_append_eq hname hkey.2 hmid with hsame | ⟨more, hmore⟩
    · exact absurd hsame.symm hne
    · exact Or.inr ⟨more, by rw [hfront, hmore, List.append_assoc]⟩
  · rw [← List.append_assoc] at hmid
    rcases cases_of_bracketed_append_eq hkey hname.2 hmid with hsame | ⟨more, hmore⟩
    · exact absurd hsame hne
    · exact Or.inl ⟨more, by rw [hbefore, hmore, List.append_assoc]⟩

end Placeholder

namespace Outline

theorem mem_headers_of_mem_records {t : Table} {row : List (String × String)} (hrow : row ∈ t.records)
    {b : Placeholder.Binding} (hb : b ∈ Placeholder.bindings row) :
    ∃ header ∈ t.headers, b.1 = header.toList := by
  rcases Table.mem_of_mem_records hrow with ⟨cells, -, rfl⟩
  rcases Placeholder.mem_bindings.1 hb with ⟨key, value, hzip, rfl⟩
  exact ⟨key, (List.of_mem_zip hzip).1, rfl⟩

/-- What is missing is a placeholder of a text and no column. -/
theorem mem_missing {o : Outline} {e : Examples} {t : Table} (htable : e.table = some t) {name : String} :
    name ∈ o.missing e ↔ name ∈ o.parameters ∧ name ∉ t.headers := by
  unfold missing
  rw [htable]
  simp [Table.hasColumn]

theorem exists_mem_texts_instantiate {o : Outline} {template : Step} (htemplate : template ∈ o.steps)
    {text : String} (htext : text ∈ template.texts) (e : Examples) (row : List (String × String)) :
    ∃ step ∈ (o.instantiate e row).steps, ∃ filled ∈ step.texts,
      filled.toList = Placeholder.substitute (Placeholder.bindings row) text.toList := by
  refine ⟨template.mapTexts (Placeholder.fill row), List.mem_map_of_mem htemplate,
    Placeholder.fill row text, ?_, String.toList_ofList⟩
  rw [Step.texts_mapTexts]
  exact List.mem_map_of_mem htext

/-- Where no column is written across a part of a text, the row's scenario has that part as written. -/
theorem exists_left_of_clears {o : Outline} {e : Examples} {t : Table} {row : List (String × String)}
    (hrow : row ∈ t.records) {template : Step} (htemplate : template ∈ o.steps) {text : String}
    (htext : text ∈ template.texts) {before word after : List Char}
    (hcut : text.toList = before ++ word ++ after)
    (hclears : ∀ header ∈ t.headers, Placeholder.Clears header.toList before word after) :
    ∃ step ∈ (o.instantiate e row).steps, ∃ filled ∈ step.texts,
      filled.toList = Placeholder.substitute (Placeholder.bindings row) before ++ word ++
        Placeholder.substitute (Placeholder.bindings row) after := by
  obtain ⟨step, hstep, filled, hfilled, heq⟩ := exists_mem_texts_instantiate htemplate htext e row
  refine ⟨step, hstep, filled, hfilled, ?_⟩
  rw [heq, hcut]
  apply Placeholder.substitute_of_clears
  intro b hb
  obtain ⟨header, hheader, hkey⟩ := mem_headers_of_mem_records hrow hb
  rw [hkey]
  exact hclears header hheader

/-- A missing name is written in a text of the outline, and each place where it is written is left as
written in every row's scenario unless a column is written across that place.  Where neither the columns
nor the name have brackets none is. -/
theorem missing_left_as_written (o : Outline) (e : Examples) (t : Table) (htable : e.table = some t)
    {name : String} (hmissing : name ∈ o.missing e) {row : List (String × String)}
    (hrow : row ∈ t.records) :
    o.instantiate e row ∈ o.expandBlock e ∧
    (∃ template ∈ o.steps, ∃ text ∈ template.texts, Placeholder.Occurs name.toList text.toList) ∧
    (∀ template ∈ o.steps, ∀ text ∈ template.texts, ∀ before after,
      text.toList = before ++ Placeholder.bracketed name.toList ++ after →
      (∀ header ∈ t.headers,
        Placeholder.Clears header.toList before (Placeholder.bracketed name.toList) after) →
      ∃ step ∈ (o.instantiate e row).steps, ∃ filled ∈ step.texts,
        filled.toList = Placeholder.substitute (Placeholder.bindings row) before ++
          Placeholder.bracketed name.toList ++ Placeholder.substitute (Placeholder.bindings row) after) ∧
    ((∀ header ∈ t.headers, '<' ∉ header.toList ∧ '>' ∉ header.toList) → '<' ∉ name.toList →
      ∃ step ∈ (o.instantiate e row).steps, ∃ filled ∈ step.texts,
        Placeholder.bracketed name.toList <:+: filled.toList) := by
  obtain ⟨hparameter, hcolumn⟩ := (mem_missing htable).1 hmissing
  obtain ⟨template, htemplate, text, htext, hfound⟩ := mem_parameters.1 hparameter
  have hoccurs := Placeholder.occurs_of_mem_names hfound
  have hmember : o.instantiate e row ∈ o.expandBlock e := by
    unfold expandBlock
    rw [htable]
    exact List.mem_map_of_mem hrow
  refine ⟨hmember, ⟨template, htemplate, text, htext, hoccurs⟩, ?_, ?_⟩
  · intro _ htemplate _ htext before after hcut hclears
    exact exists_left_of_clears hrow htemplate htext hcut hclears
  · intro hheaders hopen
    obtain ⟨before, after, hcut⟩ := hoccurs.exists_eq
    have hclears : ∀ header ∈ t.headers,
        Placeholder.Clears header.toList before (Placeholder.bracketed name.toList) after := by
      intro header hheader
      apply Placeholder.clears_of_not_mem (hheaders header hheader) ⟨hopen, hoccurs.1.not_closed⟩
      exact fun heq => hcolumn (String.toList_injective heq ▸ hheader)
    obtain ⟨step, hstep, filled, hfilled, heq⟩ :=
      exists_left_of_clears (o := o) (e := e) hrow htemplate htext hcut hclears
    exact ⟨step, hstep, filled, hfilled, _, _, heq.symm⟩

/-- A name that is no column stays between two that are. -/
theorem missing_left_as_written_of_plain_columns : ∃ (o : Outline) (e : Examples) (t : Table)
    (row : List (String × String)), o.steps.map Step.text = ["<a><b><a>"] ∧
      e.table = some t ∧ "b" ∈ o.missing e ∧ row ∈ t.records ∧
      (∀ header ∈ t.headers, '<' ∉ header.toList ∧ '>' ∉ header.toList) ∧ '<' ∉ "b".toList ∧
      ∃ step ∈ (o.instantiate e row).steps, ∃ filled ∈ step.texts,
        Placeholder.bracketed "b".toList <:+: filled.toList := by
  let t : Table := ⟨[["a"], ["1"]], .start⟩
  let e : Examples := ⟨none, none, [], some t, .start⟩
  let o : Outline := ⟨"", none, [], [⟨.given, "<a><b><a>", none, none, .start⟩], [e], .start⟩
  have hmissing : o.missing e = ["b"] := by cbv
  have hmem : "b" ∈ o.missing e := by simp [hmissing]
  have hrow : [("a", "1")] ∈ t.records := by decide
  have hheaders : ∀ header ∈ t.headers, '<' ∉ header.toList ∧ '>' ∉ header.toList := by decide
  have hopen : '<' ∉ "b".toList := by decide
  exact ⟨o, e, t, _, rfl, rfl, hmem, hrow, hheaders, hopen,
    (missing_left_as_written o e t rfl hmem hrow).2.2.2 hheaders hopen⟩

/-- A doubled bracket: the name with the bracket is no column, the name without it is, and it is filled
in inside of what is missing. -/
theorem exists_missing_filled_in : ∃ (o : Outline) (e : Examples) (t : Table)
    (row : List (String × String)), e.table = some t ∧ row ∈ t.records ∧ "<a" ∈ o.missing e ∧
      ∀ step ∈ (o.instantiate e row).steps, ∀ text ∈ step.texts,
        ¬ Placeholder.bracketed "<a".toList <:+: text.toList := by
  let t : Table := ⟨[["a"], ["1"]], .start⟩
  let e : Examples := ⟨none, none, [], some t, .start⟩
  let o : Outline := ⟨"", none, [], [⟨.given, "<<a>>", none, none, .start⟩], [e], .start⟩
  have hmissing : o.missing e = ["<a"] := by cbv
  have hfilled : (o.instantiate e [("a", "1")]).steps.map Step.texts = [["<1>"]] := by cbv
  refine ⟨o, e, t, [("a", "1")], rfl, by decide, by simp [hmissing], ?_⟩
  intro step hstep text htext
  have htexts : step.texts ∈ [["<1>"]] := hfilled ▸ List.mem_map_of_mem hstep
  rw [List.mem_singleton] at htexts
  rw [htexts, List.mem_singleton] at htext
  rw [htext]
  decide

end Outline

end Gherkin
