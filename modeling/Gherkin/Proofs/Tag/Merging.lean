import Gherkin.Outline
import Gherkin.Proofs.Printing.Printable
import Gherkin.Proofs.Text.Trimming

/-!
# Merging tags

Inserting tags one after the other keeps the normal form of each where it occurs first.  What has been
merged may be merged again: inserting the tags of a merge inserts the tags it was made of.
-/

namespace Gherkin

theorem Outline.tags_of_mem_expandBlock {o : Outline} {e : Examples} {s : Scenario}
    (hs : s ∈ o.expandBlock e) : s.tags = Tag.merge o.tags e.tags := by
  unfold expandBlock at hs
  split at hs
  · obtain ⟨row, -, rfl⟩ := List.mem_map.1 hs
    rfl
  · simp at hs

namespace Tag

/-! ## Normal forms -/

theorem toList_normalize (tag : String) : (normalize tag).toList =
    if ['@'] <+: Text.trim tag.toList then Text.trim tag.toList else '@' :: Text.trim tag.toList := by
  unfold normalize
  split
  · rename_i name h
    rw [String.toList_ofList, h, if_pos ⟨name, rfl⟩]
  · rename_i name hname
    rw [String.toList_ofList, if_neg]
    rintro ⟨rest, hrest⟩
    exact hname rest hrest.symm

/-- What opens with its `@` and is trimmed is in normal form. -/
theorem normalize_eq_self {tag : String} {name : List Char} (hname : tag.toList = '@' :: name)
    (htrim : Text.trim tag.toList = tag.toList) : normalize tag = tag := by
  rw [← String.toList_inj, toList_normalize, htrim, if_pos ⟨name, hname.symm⟩]

theorem normalize_normalize (tag : String) : normalize (normalize tag) = normalize tag := by
  have hform := toList_normalize tag
  by_cases hopens : ['@'] <+: Text.trim tag.toList
  · rw [if_pos hopens] at hform
    obtain ⟨name, hname⟩ := hopens
    apply normalize_eq_self (hform.trans hname.symm)
    rw [hform, Text.trim_idem]
  · rw [if_neg hopens] at hform
    apply normalize_eq_self hform
    rw [hform]
    exact Text.trim_cons_trim (by decide) tag.toList

/-! ## Distinct tags -/

/-- The normal forms of tags, each where it occurs first. -/
def distinct (tags : List String) : List String := (tags.map normalize).eraseDups

theorem mem_distinct {t : String} {tags : List String} :
    t ∈ distinct tags ↔ ∃ tag ∈ tags, normalize tag = t := by
  rw [distinct, List.mem_eraseDups, List.mem_map]

theorem mem_distinct_append {t : String} {xs ys : List String} :
    t ∈ distinct (xs ++ ys) ↔ t ∈ distinct xs ∨ t ∈ distinct ys := by
  simp only [mem_distinct, List.mem_append, or_and_right, exists_or]

theorem nodup_distinct (tags : List String) : (distinct tags).Nodup := nodup_eraseDups _

/-- Nothing changes where all tags are in normal form and none stands twice. -/
theorem distinct_eq_self {tags : List String} (hnormal : ∀ tag ∈ tags, normalize tag = tag)
    (hnodup : tags.Nodup) : distinct tags = tags := by
  rw [distinct, List.map_congr_left hnormal, List.map_id', eraseDups_of_nodup hnodup]

theorem distinct_distinct (tags : List String) : distinct (distinct tags) = distinct tags := by
  refine distinct_eq_self (fun t ht => ?_) (nodup_distinct tags)
  obtain ⟨tag, -, rfl⟩ := mem_distinct.1 ht
  exact normalize_normalize tag

/-! ## Inserting -/

/-- The tags with the normal form of one more behind them, unless it is among them. -/
def insert (tags : List String) (tag : String) : List String :=
  if normalize tag ∈ tags then tags else tags ++ [normalize tag]

section
variable {tags : List String} {tag : String}

theorem insert_of_mem (h : normalize tag ∈ tags) : insert tags tag = tags := if_pos h

theorem insert_of_notMem (h : normalize tag ∉ tags) : insert tags tag = tags ++ [normalize tag] := if_neg h

theorem insert_normalize (tags : List String) (tag : String) :
    insert tags (normalize tag) = insert tags tag := by
  rw [insert, normalize_normalize]
  rfl

end

/-- Inserting a tag keeps first occurrences. -/
theorem distinct_concat (tags : List String) (tag : String) :
    distinct (tags ++ [tag]) = insert (distinct tags) tag := by
  unfold distinct insert
  rw [List.map_append, List.map_singleton, eraseDups_concat]
  simp only [List.mem_eraseDups]

/-- Inserting tags one after the other keeps first occurrences. -/
theorem foldl_insert_distinct (before tags : List String) :
    tags.foldl insert (distinct before) = distinct (before ++ tags) := by
  induction tags generalizing before with
  | nil => rw [List.foldl_nil, List.append_nil]
  | cons tag tags ih =>
    rw [List.foldl_cons, ← distinct_concat, ih, List.append_assoc, List.singleton_append]

/-! ## Merging -/

def SameMembers (xs ys : List String) : Prop := ∀ t, t ∈ xs ↔ t ∈ ys

theorem SameMembers.refl (xs : List String) : SameMembers xs xs := fun _ => Iff.rfl

theorem SameMembers.cons {seen tags : List String} (h : SameMembers seen tags) (tag : String) :
    SameMembers (tag :: seen) (tags ++ [tag]) := by
  intro t
  rw [List.mem_cons, List.mem_append, List.mem_singleton, h t, or_comm]

/-- Where `before` is what was seen, what is retained comes behind its first occurrences, and is seen. -/
theorem retain_spec (before tags : List String) {seen : List String} (hseen : SameMembers seen before) :
    before.eraseDups ++ (retain seen tags).1 = (before ++ tags).eraseDups ∧
      SameMembers (retain seen tags).2 (before ++ tags) := by
  induction tags generalizing before seen with
  | nil => simpa [retain] using hseen
  | cons tag tags ih =>
    rw [retain, List.append_cons]
    have hconcat := eraseDups_concat before tag
    split
    case isTrue htag =>
      have hmem : tag ∈ before := (hseen tag).1 htag
      rw [if_pos hmem] at hconcat
      rw [← hconcat]
      apply ih
      intro t
      rw [hseen, List.mem_append, List.mem_singleton]
      exact ⟨.inl, fun ht => ht.elim id fun heq => heq ▸ hmem⟩
    case isFalse htag =>
      have hmem : tag ∉ before := fun h => htag ((hseen tag).2 h)
      rw [if_neg hmem] at hconcat
      have hmore := ih (before ++ [tag]) (hseen.cons tag)
      rw [hconcat, List.append_assoc, List.singleton_append] at hmore
      exact hmore

theorem push_eq {seen target : List String} (hseen : SameMembers seen target) (tags : List String) :
    push seen target tags = tags.foldl insert target := by
  induction tags generalizing seen target with
  | nil => rfl
  | cons tag tags ih =>
    rw [push, List.foldl_cons]
    by_cases htag : normalize tag ∈ target
    · rw [if_pos ((hseen _).2 htag), insert_of_mem htag, ih hseen]
    · rw [if_neg ((hseen _).not.2 htag), insert_of_notMem htag, ih (hseen.cons (normalize tag))]

/-- A merge inserts the tags of both lists one after the other. -/
theorem merge_eq_distinct (base additions : List String) :
    merge base additions = distinct (base ++ additions) := by
  obtain ⟨htarget, hseen⟩ := retain_spec [] (base.map normalize) (.refl [])
  have hbase : (retain [] (base.map normalize)).1 = distinct base := htarget
  unfold merge
  dsimp only
  rw [push_eq, hbase, foldl_insert_distinct]
  intro t
  rw [hseen, hbase, distinct, List.mem_eraseDups]
  rfl

theorem nodup_merge (base additions : List String) : (merge base additions).Nodup := by
  rw [merge_eq_distinct]
  exact nodup_distinct (base ++ additions)

theorem distinct_distinct_append (xs ys : List String) :
    distinct (distinct xs ++ ys) = distinct (xs ++ ys) := by
  rw [← foldl_insert_distinct, distinct_distinct, foldl_insert_distinct]

theorem distinct_append_distinct (xs ys : List String) :
    distinct (xs ++ distinct ys) = distinct (xs ++ ys) := by
  -- From the end of `ys`, since whether `distinct ys` holds a tag depends on the tags before it.
  induction ys using List.reverseRecOn with
  | nil => rfl
  | append_singleton ys y ih =>
    rw [distinct_concat, ← List.append_assoc, distinct_concat]
    by_cases h : normalize y ∈ distinct ys
    · -- The last tag is left out on both sides.
      have hmem : normalize y ∈ distinct (xs ++ ys) := mem_distinct_append.2 (.inr h)
      rw [insert_of_mem h, insert_of_mem hmem, ih]
    · -- It is put in by its normal form on the one side and as it is on the other.
      rw [insert_of_notMem h, ← List.append_assoc, distinct_concat, ih, insert_normalize]

/-- Tags whose normal forms are all there change nothing. -/
theorem distinct_append_of_forall {xs ys : List String} (h : ∀ y ∈ ys, normalize y ∈ distinct xs) :
    distinct (xs ++ ys) = distinct xs := by
  rw [← foldl_insert_distinct]
  apply List.foldlRecOn (motive := fun tags => tags = distinct xs) ys insert rfl
  intro tags htags y hy
  rw [htags, insert_of_mem (h y hy)]

/-- The tags of the feature come before those of the outline and these before those of the block. -/
theorem effectiveTags_of_mem_expandBlock (f : Feature) {o : Outline} {e : Examples} {s : Scenario}
    (hs : s ∈ o.expandBlock e) : f.effectiveTags s = distinct (f.tags ++ o.tags ++ e.tags) := by
  rw [Feature.effectiveTags, Outline.tags_of_mem_expandBlock hs, merge_eq_distinct, merge_eq_distinct,
    distinct_append_distinct, List.append_assoc]

/-- A merge lists the normal forms of the tags of both lists in their order, each where it occurs first.
So nothing stands in it twice, merging again with the same list changes nothing, and it does not matter
which of three lists are merged first.  A scenario that an outline stands for has the tags of the feature,
of the outline and of its block of examples in this order. -/
theorem merge_ordered_union (a b : List String) :
    (∀ tag, (normalize tag).toList =
      if ['@'] <+: Text.trim tag.toList then Text.trim tag.toList else '@' :: Text.trim tag.toList) ∧
    merge a b = ((a ++ b).map normalize).eraseDups ∧
    (merge a b).Nodup ∧
    merge (merge a b) b = merge a b ∧
    (∀ c, merge (merge a b) c = merge a (merge b c)) ∧
    ∀ (f : Feature) (o : Outline), o.expand.map f.effectiveTags =
      o.examples.flatMap fun e => (o.expandBlock e).map fun _ =>
        ((f.tags ++ o.tags ++ e.tags).map normalize).eraseDups := by
  refine ⟨toList_normalize, merge_eq_distinct a b, nodup_merge a b, ?_, fun c => ?_, fun f o => ?_⟩
  · rw [merge_eq_distinct, merge_eq_distinct, distinct_distinct_append]
    apply distinct_append_of_forall
    intro tag htag
    exact mem_distinct.2 ⟨tag, List.mem_append_right a htag, rfl⟩
  · simp only [merge_eq_distinct]
    rw [distinct_distinct_append, distinct_append_distinct, List.append_assoc]
  · rw [Outline.expand, List.map_flatMap]
    congr 1
    funext e
    apply List.map_congr_left
    intro s hs
    exact effectiveTags_of_mem_expandBlock f hs

/-- Tags that are the same only in their normal forms, on one side and on both. -/
example : merge ["@fast", "slow", " fast"] ["@slow", " web ", "@web"] = ["@fast", "@slow", "@web"] := by decide

end Tag

end Gherkin
