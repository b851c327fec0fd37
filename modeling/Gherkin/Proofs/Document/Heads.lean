import Gherkin.Proofs.Document.Nodes
import Gherkin.Proofs.Token.Coordinates

/-!
# The tokens that nodes are located at

Every node but a doc string keeps the location of one token of its kind, which heads it.  A reader
takes the heads of its nodes from the tokens that it passes over, in their order and none twice,
whether or not it meets a fault.
-/

namespace Gherkin

def Node.location? : Node → Option Location
  | .feature f => some f.location
  | .background b => some b.location
  | .scenario s => some s.location
  | .outline o => some o.location
  | .examples e => some e.location
  | .step s => some s.location
  | .table data => some data.location
  | .docString _ => none

/-- The token is of the kind of the node, and the first row of a table. -/
def Node.HeadedBy : Node → Token → Prop
  | .feature _, t => t.kind = .block .feature
  | .background _, t => t.kind = .block .background
  | .scenario _, t => t.kind = .block .scenario
  | .outline _, t => t.kind = .block .scenario ∨ t.kind = .block .scenarioOutline
  | .examples _, t => t.kind = .block .examples
  | .step s, t => t.kind = .step s.keyword
  | .table data, t => t.kind = .tableRow ∧ data.rows.head? = some (Table.splitCells t.text)
  | .docString _, t => t.kind = .docString

def Node.LocatedAt (n : Node) (t : Token) : Prop := n.HeadedBy t ∧ n.location? = some t.location

namespace Reader

def Heads (nodes : List Node) (ts rest : List Token) : Prop :=
  ∃ heads before, ts = before ++ rest ∧ heads.Sublist before ∧
    List.Forall₂ Node.LocatedAt (nodes.filter fun n => n.location?.isSome) heads

section
variable {nodes more : List Node} {ts us rest : List Token}

theorem Heads.of_suffix (h : rest <:+ ts) : Heads [] ts rest := by
  obtain ⟨before, rfl⟩ := h
  exact ⟨[], before, rfl, List.nil_sublist before, .nil⟩

theorem Heads.trans (h : Heads nodes ts us) (h' : Heads more us rest) :
    Heads (nodes ++ more) ts rest := by
  obtain ⟨heads, before, rfl, hsub, hheads⟩ := h
  obtain ⟨heads', before', rfl, hsub', hheads'⟩ := h'
  refine ⟨heads ++ heads', before ++ before', by simp, hsub.append hsub', ?_⟩
  rw [List.filter_append]
  exact List.rel_append hheads hheads'

theorem Heads.of_suffix_left (hts : us <:+ ts) (h : Heads nodes us rest) : Heads nodes ts rest :=
  (Heads.of_suffix hts).trans h

/-- A node before others, at the token that reading begins with. -/
theorem Heads.cons {n : Node} {t : Token} (hn : n.LocatedAt t) (h : Heads nodes ts rest) :
    Heads (n :: nodes) (t :: ts) rest := by
  obtain ⟨heads, before, rfl, hsub, hheads⟩ := h
  refine ⟨t :: heads, t :: before, rfl, hsub.cons_cons t, ?_⟩
  rw [List.filter_cons_of_pos (by rw [hn.2]; rfl)]
  exact .cons hn hheads

/-- A doc string has no location to keep. -/
theorem Heads.docString (content : DocString) (h : rest <:+ ts) :
    Heads [.docString content] ts rest := Heads.of_suffix h

end

/-! ## Readers -/

variable {source : List Char}

theorem heads_table {t : Token} (ht : t.kind = .tableRow) (ts : List Token) :
    Heads [.table (table t ts).value] (t :: ts) (table t ts).rest := by
  have hrest : (table t ts).rest <:+ ts := by
    show (rows (t :: ts)).2 <:+ ts
    rw [rows, if_pos ht]
    exact (rows_suffix _).trans (skipGaps_suffix ts)
  refine Heads.cons ⟨⟨ht, ?_⟩, rfl⟩ (Heads.of_suffix hrest)
  show (((rows (t :: ts)).1).map fun row => Table.splitCells row.text).head? = _
  rw [rows, if_pos ht]
  rfl

theorem heads_argument (source : List Char) (ts : List Token) :
    Heads (argumentNodes (argument source ts).value) ts (argument source ts).rest := by
  fun_cases argument source ts with
  | case1 => exact Heads.of_suffix (List.suffix_refl _)
  | case2 t ts ht => exact heads_table ht ts
  | case3 t ts _ ht => exact Heads.docString _ (List.suffix_cons t ts)
  | case4 t ts => exact Heads.of_suffix (List.suffix_refl _)

theorem heads_step {k : StepKeyword} {t : Token} (ht : t.kind = .step k) (ts : List Token) :
    Heads ((step source k t ts).value.walk fun _ => true) (t :: ts) (step source k t ts).rest :=
  Heads.cons ⟨ht, rfl⟩ ((heads_argument source _).of_suffix_left
    ((skipGaps_suffix _).trans (skipLine_suffix ts)))

theorem heads_steps (source : List Char) (ts : List Token) :
    Heads ((steps source ts).value.flatMap (Step.walk fun _ => true)) ts (steps source ts).rest := by
  fun_induction steps source ts with
  | case1 ts hgaps => exact Heads.of_suffix List.nil_suffix
  | case2 ts t more hgaps k hk first _ others ih =>
    have hts : t :: more <:+ ts := hgaps ▸ skipGaps_suffix ts
    exact ((heads_step hk more).of_suffix_left hts).trans ih
  | case3 ts t more hgaps =>
    have hts : t :: more <:+ ts := hgaps ▸ skipGaps_suffix ts
    exact Heads.of_suffix ((synchronize_suffix more).trans ((List.suffix_cons t more).trans hts))
  | case4 ts t more hgaps => exact Heads.of_suffix (hgaps ▸ skipGaps_suffix ts)

theorem heads_examples (tags : List String) {t : Token} (ht : t.kind = .block .examples)
    (ts : List Token) :
    Heads ((examples source tags t ts).value.walk fun _ => true) (t :: ts)
      (examples source tags t ts).rest := by
  have hskip := (skipGaps_suffix (skipHeader source ts)).trans (skipHeader_suffix source ts)
  unfold examples
  dsimp only
  split
  · rename_i a more hmore
    rw [hmore] at hskip
    split
    · rename_i ha
      exact Heads.cons ⟨ht, rfl⟩ ((heads_table ha more).of_suffix_left hskip)
    · exact Heads.cons ⟨ht, rfl⟩ (Heads.of_suffix hskip)
  · exact Heads.cons ⟨ht, rfl⟩ (Heads.of_suffix List.nil_suffix)

theorem heads_exampleBlocks (source : List Char) (started : Bool) (ts : List Token) :
    Heads ((exampleBlocks source started ts).value.flatMap (Examples.walk fun _ => true)) ts
      (exampleBlocks source started ts).rest := by
  fun_induction exampleBlocks source started ts with
  | case1 => exact Heads.of_suffix (List.suffix_refl _)
  | case2 _ ts t more hskip _ hk first _ others ih =>
    have hts : t :: more <:+ ts := hskip ▸ skipTags_suffix ts
    exact ((heads_examples _ hk more).of_suffix_left hts).trans ih
  | case3 ts t more hskip _ _ _ _ others ih =>
    have hts : t :: more <:+ ts := hskip ▸ skipTags_suffix ts
    exact ih.of_suffix_left ((synchronize_suffix more).trans ((List.suffix_cons t more).trans hts))
  | case4 => exact Heads.of_suffix (List.suffix_refl _)
  | case5 => exact Heads.of_suffix (List.suffix_refl _)

theorem heads_child (tags : List String) {t : Token}
    (ht : t.kind = .block .scenario ∨ t.kind = .block .scenarioOutline) (ts : List Token) :
    Heads ((child source tags t ts).value.walk fun _ => true) (t :: ts)
      (child source tags t ts).rest := by
  have hbelow := ((heads_steps source (skipHeader source ts)).trans
    (heads_exampleBlocks source false _)).of_suffix_left (skipHeader_suffix source ts)
  unfold child
  dsimp only
  split
  · exact Heads.cons ⟨ht, rfl⟩ hbelow
  · rename_i houtline
    simp only [Bool.or_eq_true, decide_eq_true_eq, Bool.not_eq_true', not_or] at houtline
    have hnone : (exampleBlocks source false (steps source (skipHeader source ts)).rest).value = [] := by
      simpa using houtline.2
    rw [hnone, List.flatMap_nil, List.append_nil] at hbelow
    exact Heads.cons ⟨ht.resolve_right houtline.1, rfl⟩ hbelow

theorem heads_background {t : Token} (ht : t.kind = .block .background) (ts : List Token) :
    Heads ((background source t ts).value.walk fun _ => true) (t :: ts) (background source t ts).rest :=
  Heads.cons ⟨ht, rfl⟩ ((heads_steps source _).of_suffix_left (skipHeader_suffix source ts))

theorem eq_none_of_backgroundFault? {f : Feature} (h : backgroundFault? f = none) :
    f.background = none ∧ f.children = [] := by
  unfold backgroundFault? at h
  by_cases hbackground : f.background.isSome
  · simp [hbackground] at h
  · by_cases hchildren : f.children = []
    · exact ⟨by simpa using hbackground, hchildren⟩
    · simp [hbackground, hchildren] at h

/-- The nodes that reading the parts of a feature adds.  A background out of place adds none. -/
theorem heads_body (source : List Char) (f : Feature) (ts : List Token) :
    ∃ nodes, partNodes (body source f ts).1 = partNodes f ++ nodes ∧ Heads nodes ts [] := by
  fun_induction body source f ts with
  | case1 f ts => exact ⟨[], (List.append_nil _).symm, Heads.of_suffix List.nil_suffix⟩
  | case2 f ts run t more hskip _ _ hk read _ tagged misplaced f' g errors hbody ih =>
    have hts : t :: more <:+ ts := hskip ▸ skipTags_suffix ts
    rw [hbody] at ih
    obtain ⟨nodes, hnodes, hheads⟩ := ih
    -- A background out of place is read, but it is not put into the feature.
    by_cases hmisplaced : misplaced.isEmpty
    · have hfault : backgroundFault? f = none := by simpa [misplaced] using hmisplaced
      obtain ⟨hbackground, hchildren⟩ := eq_none_of_backgroundFault? hfault
      refine ⟨read.value.walk (fun _ => true) ++ nodes, ?_,
        ((heads_background hk more).of_suffix_left hts).trans hheads⟩
      rw [hnodes]
      simp [partNodes, f', hmisplaced, hbackground, hchildren]
    · refine ⟨nodes, ?_, hheads.of_suffix_left ?_⟩
      · rw [hnodes]
        simp [f', hmisplaced]
      · exact (background_suffix source t more).trans ((List.suffix_cons t more).trans hts)
  | case3 f ts run t more hskip _ _ hk read _ g errors hbody ih
  | case4 f ts run t more hskip _ _ hk read _ g errors hbody ih =>
    have hts : t :: more <:+ ts := hskip ▸ skipTags_suffix ts
    rw [hbody] at ih
    obtain ⟨nodes, hnodes, hheads⟩ := ih
    refine ⟨read.value.walk (fun _ => true) ++ nodes, ?_,
      ((heads_child run.tags (by simp [hk]) more).of_suffix_left hts).trans hheads⟩
    rw [hnodes]
    simp [partNodes]
  | case5 f ts t more hskip _ _ _ read _ g errors hbody ih =>
    have hts : t :: more <:+ ts := hskip ▸ skipTags_suffix ts
    rw [hbody] at ih
    obtain ⟨nodes, hnodes, hheads⟩ := ih
    refine ⟨nodes, hnodes, hheads.of_suffix_left ?_⟩
    exact (examples_suffix source [] t more).trans ((List.suffix_cons t more).trans hts)
  | case6 f ts run t more hskip _ _ g errors hbody _ _ _ _ fault ih =>
    have hts : t :: more <:+ ts := hskip ▸ skipTags_suffix ts
    rw [hbody] at ih
    obtain ⟨nodes, hnodes, hheads⟩ := ih
    refine ⟨nodes, hnodes, hheads.of_suffix_left ?_⟩
    exact (synchronize_suffix more).trans ((List.suffix_cons t more).trans hts)

/-- A document that is read begins with the header of its feature, which holds nothing yet. -/
theorem exists_opened {source : String} {p : Parsed} (hparse : parse source = .ok p) :
    ∃ opened t more, t :: more <:+ live (tokens .english source) ∧ t.kind = .block .feature ∧
      opened.location = t.location ∧ partNodes opened = [] ∧
        p.feature = (body source.toList opened (skipHeader source.toList more)).1 := by
  obtain ⟨tags, t, more, hheader, hread⟩ := exists_of_parse_eq_ok hparse
  obtain ⟨before, hts, ht, -⟩ := eq_append_of_header? hheader
  exact ⟨_, t, more, ⟨before, hts.symm⟩, ht, rfl, rfl, congrArg Prod.fst hread⟩

/-- The nodes of a document keep locations of the tokens of its source. -/
theorem heads_feature {source : String} {p : Parsed} (hparse : parse source = .ok p) :
    Heads p.feature.nodes (live (tokens .english source)) [] := by
  obtain ⟨opened, t, more, hsuffix, ht, hopened, hnone, hfeature⟩ := exists_opened hparse
  obtain ⟨nodes, hnodes, hheads⟩ := heads_body source.toList opened (skipHeader source.toList more)
  obtain ⟨background, children, hbody⟩ :=
    exists_body_eq source.toList opened (skipHeader source.toList more)
  have hlocation : p.feature.location = t.location := by rw [hfeature, hbody, ← hopened]
  have hwalk : p.feature.nodes = .feature p.feature :: nodes := by
    show Node.feature p.feature :: partNodes p.feature = _
    rw [hfeature, hnodes, hnone, List.nil_append]
  rw [hwalk]
  refine Heads.of_suffix_left hsuffix (Heads.cons ⟨ht, congrArg some hlocation⟩ ?_)
  exact hheads.of_suffix_left (skipHeader_suffix source.toList more)

end Reader

/-! ## Positions -/

theorem exists_mem_of_locatedAt {nodes : List Node} {heads : List Token}
    (h : List.Forall₂ Node.LocatedAt nodes heads) {n : Node} (hn : n ∈ nodes) :
    ∃ t ∈ heads, n.LocatedAt t := by
  induction h with
  | nil => simp at hn
  | @cons m t ms ts hm _ ih =>
    rcases List.mem_cons.1 hn with rfl | hn
    · exact ⟨t, List.mem_cons_self, hm⟩
    · obtain ⟨u, hu, hlocated⟩ := ih hn
      exact ⟨u, List.mem_cons_of_mem t hu, hlocated⟩

theorem locations_eq {nodes : List Node} {heads : List Token}
    (h : List.Forall₂ Node.LocatedAt nodes heads) :
    nodes.filterMap Node.location? = heads.map Token.location := by
  induction h with
  | nil => rfl
  | cons hn _ ih => rw [List.filterMap_cons_some hn.2, ih, List.map_cons]

theorem filterMap_location_filter (nodes : List Node) :
    (nodes.filter fun n => n.location?.isSome).filterMap Node.location? =
      nodes.filterMap Node.location? := by
  rw [List.filterMap_filter]
  congr 1
  funext n
  cases h : n.location? <;> rfl

/-- Every token and every lexical error of a source is located at a place of the source whose line,
column and offset agree with the characters before it, and every node of a document that is read, with
or without faults, has its location from a token of its kind, the nodes in the order of their
offsets. -/
theorem locations_are_places (d : Dialect) (source : String) :
    (∀ t ∈ tokens d source, t.location.Marks source.toList) ∧
    (∀ e ∈ lexicalErrors d source, e.location.Marks source.toList) ∧
    ∀ p, parse source = .ok p →
      (∀ n ∈ p.feature.nodes, ∀ loc, n.location? = some loc →
        ∃ t ∈ tokens .english source, n.HeadedBy t ∧ t.location = loc) ∧
      (p.feature.nodes.filterMap Node.location?).Pairwise fun a b => a.offset < b.offset := by
  refine ⟨fun t => marks_of_mem_tokens, fun e => marks_of_mem_lexicalErrors, fun p hparse => ?_⟩
  obtain ⟨heads, before, hlive, hsub, hheads⟩ := Reader.heads_feature hparse
  have hsub' : heads.Sublist (tokens .english source) := by
    rw [List.append_nil] at hlive
    rw [← hlive] at hsub
    exact hsub.trans (List.takeWhile_prefix _).sublist
  constructor
  · intro n hn loc hloc
    have hlocated : n ∈ p.feature.nodes.filter fun n => n.location?.isSome :=
      List.mem_filter.2 ⟨hn, by rw [hloc]; rfl⟩
    obtain ⟨t, ht, hheaded, hlocation⟩ := exists_mem_of_locatedAt hheads hlocated
    refine ⟨t, hsub'.subset ht, hheaded, ?_⟩
    exact Option.some.inj (hlocation.symm.trans hloc)
  · rw [← filterMap_location_filter, locations_eq hheads, List.pairwise_map]
    exact (pairwise_offset_tokens Dialect.Offered.english.isKeyword source).sublist hsub'

set_option maxRecDepth 16000 in
/-- A source with a byte-order mark, a carriage return and an `@` without a name. -/
theorem locations_are_places_of_nameless_tag : ∃ source p, parse source = .ok p ∧
    p.errors.map ParseError.location = [⟨2, 1, 16⟩] ∧
    p.feature.nodes.filterMap Node.location? = [⟨1, 1, 3⟩, ⟨3, 1, 18⟩] ∧
    (∀ n ∈ p.feature.nodes, ∀ loc, n.location? = some loc →
      ∃ t ∈ tokens .english source, n.HeadedBy t ∧ t.location = loc) ∧
    ∀ e ∈ lexicalErrors .english source, e.location.Marks source.toList := by
  have hparse : parse "\uFEFFFeature: é\r\n@\nScenario: s\n" =
      .ok ⟨⟨"é", none, [], none, [.scenario ⟨"s", none, [], [], ⟨3, 1, 18⟩⟩], ⟨1, 1, 3⟩⟩,
        [⟨.lexical .missingTagName, ⟨2, 1, 16⟩⟩]⟩ := by
    rw [parse_eq]
    cbv
  obtain ⟨-, herrors, hnodes⟩ := locations_are_places .english _
  exact ⟨_, _, hparse, rfl, rfl, (hnodes _ hparse).1, herrors⟩

end Gherkin
