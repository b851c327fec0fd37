import Gherkin.Proofs.Document.Parts
import Gherkin.Proofs.Printing.Faultless
import Gherkin.Proofs.Tag.Merging
import Gherkin.Proofs.Tag.Rendering

/-!
# Selecting scenarios by a tag

A tag that stands in a document can be written in an expression, by itself or after a `not`.  It selects
the scenarios that have it, and with the `not` all others, whatever merging went on between the tags as they
are read and the effective tags of a scenario.
-/

namespace Gherkin

namespace Tag

/-! ## Merging -/

/-- Tags are in normal form as they are read. -/
theorem normalize_of_isTag {s : String} (h : IsTag s) : normalize s = s := by
  obtain ⟨name, hs, -, hname⟩ := h
  have hvisible : ∀ c ∈ '@' :: name, ¬ Text.isBlank c := by
    intro c hc
    rcases List.mem_cons.1 hc with rfl | hc
    · decide
    · exact not_isBlank_of_isTagCharacter (hname c hc)
  have htrim : Text.trim ('@' :: name) = '@' :: name := by
    apply Text.trim_eq_self
    · intro c cs heq
      exact hvisible c (by rw [heq]; exact List.mem_cons_self)
    · intro c cs heq
      exact hvisible c (by rw [heq]; simp)
  exact normalize_eq_self hs (by rw [hs, htrim])

section
variable {base additions : List String} (hbase : AreTags base) (hadditions : AreTags additions)
include hbase hadditions

theorem mem_merge {t : String} : t ∈ merge base additions ↔ t ∈ base ∨ t ∈ additions := by
  have hnormal : ∀ s ∈ base ++ additions, normalize s = s := by
    intro s hs
    rcases List.mem_append.1 hs with hs | hs
    · exact normalize_of_isTag (hbase.2 s hs)
    · exact normalize_of_isTag (hadditions.2 s hs)
  rw [merge_eq_distinct, distinct, List.mem_eraseDups, List.map_congr_left hnormal, List.map_id', List.mem_append]

/-- A merge of tags that stand before parts could stand before a part itself. -/
theorem areTags_merge : AreTags (merge base additions) := by
  refine ⟨nodup_merge base additions, fun t ht => ?_⟩
  rcases (mem_merge hbase hadditions).1 ht with ht | ht
  · exact hbase.2 t ht
  · exact hadditions.2 t ht

end

/-! ## Expressions of one tag -/

section
variable {t : String} (ht : IsTag t)
include ht

theorem written_of_isTag : Written t.toList [.tag t] := by
  obtain ⟨name, hs, hne, hname⟩ := ht
  have hwritten := Written.tag hne hname (by simp) .nil
  rwa [List.append_nil, ← hs, String.ofList_toList] at hwritten

theorem written_not_of_isTag : Written ("not " ++ t).toList [.operator .not, .tag t] := by
  have hoperand : Written (' ' :: t.toList) [.tag t] := .blank (by decide) (written_of_isTag ht)
  have hletters : ∀ c ∈ Operator.not.name.toList, c.isAlpha := List.all_eq_true.1 rfl
  have hwritten : Written (Operator.not.name.toList ++ ' ' :: t.toList) [.operator .not, .tag t] :=
    .operator rfl hletters (by simp) hoperand
  rwa [String.toList_append]

theorem Expression.exists_parse_tag :
    ∃ e, Expression.parse t = .ok e ∧ ∀ tags, e.accepts tags = decide (t ∈ tags) :=
  exists_parse_eq_ok (written_of_isTag ht) (.conjuncts (.operand (.tag t)))

theorem Expression.exists_parse_not_tag :
    ∃ e, Expression.parse ("not " ++ t) = .ok e ∧ ∀ tags, e.accepts tags = !decide (t ∈ tags) :=
  exists_parse_eq_ok (written_not_of_isTag ht) (.conjuncts (.operand (.not (.tag t))))

end

end Tag

/-! ## The tags of a document -/

def Node.tags : Node → List String
  | .feature f => f.tags
  | .scenario s => s.tags
  | .outline o => o.tags
  | .examples e => e.tags
  | .background _ | .step _ | .table _ | .docString _ => []

def Child.Tagged : Child → Prop
  | .scenario s => AreTags s.tags
  | .outline o => AreTags o.tags ∧ ∀ e ∈ o.examples, AreTags e.tags

structure Feature.Tagged (f : Feature) : Prop where
  tags : AreTags f.tags
  children : ∀ c ∈ f.children, c.Tagged

namespace Reader

variable {source : String} {ts more : List Token} {t : Token}

theorem tags_examples (source : List Char) (tags : List String) (t : Token) (ts : List Token) :
    (examples source tags t ts).value.tags = tags := by
  unfold examples
  dsimp only
  split
  · split <;> rfl
  · rfl

theorem areTags_of_mem_exampleBlocks {started : Bool} (hts : ts <:+ live (tokens .english source)) :
    ∀ e ∈ (exampleBlocks source.toList started ts).value, AreTags e.tags := by
  fun_induction exampleBlocks source.toList started ts with
  | case1 => simp
  | case2 started ts t more hskip _ hk first _ others ih =>
    have hrest : first.rest <:+ ts := suffix_of_skipTags hskip (examples_suffix _ _ t more)
    intro e he
    rcases List.mem_cons.1 he with rfl | he
    · rw [tags_examples]
      exact areTags_tagRun hts
    · exact ih (hrest.trans hts) e he
  | case3 ts t more hskip _ _ _ _ others ih =>
    have hrest : synchronize more <:+ ts := suffix_of_skipTags hskip (synchronize_suffix more)
    exact ih (hrest.trans hts)
  | case4 => simp
  | case5 => simp

theorem tagged_child {tags : List String} (htags : AreTags tags)
    (hmore : more <:+ live (tokens .english source)) : (child source.toList tags t more).value.Tagged := by
  have hrest := (steps_suffix source.toList _).trans ((skipHeader_suffix source.toList more).trans hmore)
  unfold child
  dsimp only
  split
  · exact ⟨htags, areTags_of_mem_exampleBlocks hrest⟩
  · exact htags

/-- Reading on keeps a feature tagged, with and without faults. -/
theorem tagged_body {f : Feature} (hf : f.Tagged) (hts : ts <:+ live (tokens .english source)) :
    (body source.toList f ts).1.Tagged := by
  apply keeps_body hf
  intro g us r hus hr hg
  cases hvalue : r.value with
  | none => exact hg
  | some p =>
    -- Only a child brings tags, those of the run in front of its header.
    rcases exists_of_mem_part? hr hvalue with ⟨t, more, hmore, rfl | rfl⟩
    · exact ⟨hg.tags, hg.children⟩
    · refine ⟨hg.tags, fun c hc => ?_⟩
      rcases List.mem_append.1 hc with hc | hc
      · exact hg.children c hc
      · rw [List.mem_singleton.1 hc]
        have hrest := ((List.suffix_cons t more).trans hmore).trans (hus.trans hts)
        exact tagged_child (areTags_tagRun (hus.trans hts)) hrest

theorem tags_of_header? {tags : List String} (h : header? ts = some (tags, t, more)) :
    (∃ before, before <:+ ts ∧ tags = (tagRun before).tags) ∧ more <:+ ts := by
  fun_induction header? ts with
  | case1 => simp at h
  | case2 ts u rest hskip shorter hu =>
    obtain ⟨rfl, rfl, rfl⟩ : (tagRun ts).tags = tags ∧ u = t ∧ rest = more := by simpa using h
    exact ⟨⟨ts, List.suffix_refl ts, rfl⟩, suffix_of_skipTags hskip (List.suffix_refl rest)⟩
  | case3 ts u rest hskip shorter hu ih =>
    have hrest : rest <:+ ts := suffix_of_skipTags hskip (List.suffix_refl rest)
    obtain ⟨⟨before, hbefore, htags⟩, hmore⟩ := ih h
    exact ⟨⟨before, hbefore.trans hrest, htags⟩, hmore.trans hrest⟩

end Reader

theorem tagged_of_parse {source : String} {p : Parsed} (h : parse source = .ok p) : p.feature.Tagged := by
  obtain ⟨tags, t, more, hheader, hread⟩ := exists_of_parse_eq_ok h
  obtain ⟨⟨before, hbefore, htags⟩, hmore⟩ := Reader.tags_of_header? hheader
  rw [(Prod.mk.inj hread).1]
  apply Reader.tagged_body ⟨?_, by simp⟩ ((Reader.skipHeader_suffix source.toList more).trans hmore)
  rw [htags]
  exact Reader.areTags_tagRun hbefore

namespace Feature.Tagged

variable {f : Feature} (h : f.Tagged)
include h

theorem areTags_of_mem_nodes : ∀ n ∈ f.nodes, AreTags n.tags := by
  -- Steps and what belongs to them have no tags of their own.
  have huntagged : AreTags [] := ⟨List.nodup_nil, by simp⟩
  have hsteps : ∀ {steps : List Step}, ∀ n ∈ steps.flatMap (Step.walk fun _ => true), AreTags n.tags := by
    intro steps n hn
    obtain ⟨s, -, hn⟩ := List.mem_flatMap.1 hn
    rcases List.mem_cons.1 hn with rfl | hn
    · exact huntagged
    · rcases List.mem_append.1 hn with hn | hn
      all_goals
        obtain ⟨x, -, rfl⟩ := List.mem_map.1 hn
        exact huntagged
  intro n hn
  rcases List.mem_cons.1 hn with rfl | hn
  · exact h.tags
  rcases List.mem_append.1 hn with hn | hn
  · obtain ⟨b, -, hn⟩ := List.mem_flatMap.1 hn
    rcases List.mem_cons.1 hn with rfl | hn
    · exact huntagged
    · exact hsteps n hn
  obtain ⟨c, hc, hn⟩ := List.mem_flatMap.1 hn
  cases c with
  | scenario s =>
    rcases List.mem_cons.1 hn with rfl | hn
    · exact h.children _ hc
    · exact hsteps n hn
  | outline o =>
    obtain ⟨htags, hexamples⟩ := h.children _ hc
    rcases List.mem_cons.1 hn with rfl | hn
    · exact htags
    rcases List.mem_append.1 hn with hn | hn
    · exact hsteps n hn
    · obtain ⟨e, he, hn⟩ := List.mem_flatMap.1 hn
      rcases List.mem_cons.1 hn with rfl | hn
      · exact hexamples e he
      · obtain ⟨table, -, rfl⟩ := List.mem_map.1 hn
        exact huntagged

theorem areTags_of_mem_allScenarios : ∀ s ∈ f.allScenarios, AreTags s.tags := by
  intro s hs
  obtain ⟨c, hc, hs⟩ := List.mem_flatMap.1 hs
  cases c with
  | scenario s' =>
    obtain rfl := List.mem_singleton.1 hs
    exact h.children _ hc
  | outline o =>
    obtain ⟨htags, hexamples⟩ := h.children _ hc
    obtain ⟨e, he, hs⟩ := List.mem_flatMap.1 hs
    rw [Outline.tags_of_mem_expandBlock hs]
    exact Tag.areTags_merge htags (hexamples e he)

theorem areTags_effectiveTags {s : Scenario} (hs : s ∈ f.allScenarios) : AreTags (f.effectiveTags s) :=
  Tag.areTags_merge h.tags (h.areTags_of_mem_allScenarios s hs)

end Feature.Tagged

/-- In every source that is read, with faults or without, the tags before each part are tags of the
expression grammar and stand there once.  Each effective tag of a scenario is an expression that selects
the scenarios with that tag, and with `not` before it an expression that selects the others. -/
theorem filterByTags_effectiveTag (source : String) (p : Parsed) (hparse : parse source = .ok p) :
    (∀ n ∈ p.feature.nodes, n.tags.Nodup ∧ ∀ t ∈ n.tags, IsTag t) ∧
    ∀ s ∈ p.feature.allScenarios, ∀ t ∈ p.feature.effectiveTags s,
      (∃ e, Tag.Expression.parse t = .ok e ∧ p.feature.filterByTags e =
        p.feature.allScenarios.filter fun s => t ∈ p.feature.effectiveTags s) ∧
      ∃ e, Tag.Expression.parse ("not " ++ t) = .ok e ∧ p.feature.filterByTags e =
        p.feature.allScenarios.filter fun s => t ∉ p.feature.effectiveTags s := by
  have htagged := tagged_of_parse hparse
  refine ⟨htagged.areTags_of_mem_nodes, fun s hs t ht => ?_⟩
  have htag : IsTag t := (htagged.areTags_effectiveTags hs).2 t ht
  constructor
  · obtain ⟨e, he, haccepts⟩ := Tag.Expression.exists_parse_tag htag
    refine ⟨e, he, List.filter_congr fun s _ => ?_⟩
    exact haccepts _
  · obtain ⟨e, he, haccepts⟩ := Tag.Expression.exists_parse_not_tag htag
    refine ⟨e, he, List.filter_congr fun s _ => ?_⟩
    rw [haccepts, decide_not]

set_option maxRecDepth 16000 in
/-- Tags that are written twice, tags of examples and of the feature, and tags that belong to nothing. -/
theorem filterByTags_effectiveTag_of_stray_tags : ∃ p,
    parse ("@f @f\nFeature: f\n@a @f\nScenario Outline: o\n@b-1 @a\nExamples:\n|x|\n|1|\n" ++
        "Scenario: s\n@z\n") = .ok p ∧
      p.errors ≠ [] ∧
      p.feature.allScenarios.map p.feature.effectiveTags = [["@f", "@a", "@b-1"], ["@f"]] ∧
      (∀ n ∈ p.feature.nodes, n.tags.Nodup ∧ ∀ t ∈ n.tags, IsTag t) ∧
      (∃ e, Tag.Expression.parse "@b-1" = .ok e ∧ p.feature.filterByTags e =
        p.feature.allScenarios.filter fun s => "@b-1" ∈ p.feature.effectiveTags s) ∧
      ∃ e, Tag.Expression.parse ("not " ++ "@b-1") = .ok e ∧ p.feature.filterByTags e =
        p.feature.allScenarios.filter fun s => "@b-1" ∉ p.feature.effectiveTags s := by
  let o : Outline := ⟨"o", none, ["@a", "@f"], [],
    [⟨none, none, ["@b-1", "@a"], some ⟨[["x"], ["1"]], ⟨7, 1, 61⟩⟩, ⟨6, 1, 51⟩⟩], ⟨4, 1, 23⟩⟩
  let s : Scenario := ⟨"s", none, [], [], ⟨9, 1, 69⟩⟩
  let f : Feature := ⟨"f", none, ["@f"], none, [.outline o, .scenario s], ⟨2, 1, 6⟩⟩
  have hparse : parse ("@f @f\nFeature: f\n@a @f\nScenario Outline: o\n@b-1 @a\nExamples:\n|x|\n|1|\n" ++
        "Scenario: s\n@z\n") =
      .ok ⟨f, [⟨.fit .strayTags, ⟨10, 1, 81⟩⟩]⟩ := by
    rw [parse_eq]
    cbv
  have htags : f.allScenarios.map f.effectiveTags = [["@f", "@a", "@b-1"], ["@f"]] := by cbv
  obtain ⟨hnodes, hselects⟩ := filterByTags_effectiveTag _ _ hparse
  have hscenario : ∃ s ∈ f.allScenarios, f.effectiveTags s = ["@f", "@a", "@b-1"] :=
    List.mem_map.1 (htags ▸ List.mem_cons_self)
  obtain ⟨x, hx, heffective⟩ := hscenario
  exact ⟨_, hparse, by simp, htags, hnodes, hselects x hx "@b-1" (by rw [heffective]; simp)⟩

end Gherkin
