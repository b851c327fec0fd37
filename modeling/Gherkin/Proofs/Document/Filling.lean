import Gherkin.Proofs.Document.FaultPlaces
import Gherkin.Proofs.Document.Parts
import Gherkin.Proofs.Document.Recovery

/-!
# What fills a child

Tokens after the header of a child that are neither keywords of blocks nor tags are read into the
child or skipped, whatever they are.  Reading goes on with the tags and the header behind them, and
nothing is kept of the tokens but the child itself and its faults.
-/

namespace Gherkin.Reader

variable {source : List Char} {ts more : List Token}

/-! ## Gaps -/

theorem tagRun_skipGaps (ts : List Token) : tagRun (skipGaps ts) = tagRun ts := by
  have htags : ∀ us : List Token,
      (us.takeWhile inTagRun).filter (fun t => t.kind = .tag) = frontTags us := fun _ => rfl
  unfold tagRun
  rw [htags, htags, frontTags_skipGaps]

theorem part?_skipGaps (bar : Option OrderFault) (ts : List Token) :
    part? source bar (skipGaps ts) = part? source bar ts := by
  unfold part?
  rw [skipTags_skipGaps, tagRun_skipGaps]

/-- Gaps before a part do not matter. -/
theorem body_skipGaps (f : Feature) (ts : List Token) :
    body source f (skipGaps ts) = body source f ts := by
  cases hpart : part? source (backgroundFault? f) ts with
  | none =>
    rw [body_of_part?_eq_none hpart, body_of_part?_eq_none ((part?_skipGaps _ ts).trans hpart),
      tagRun_skipGaps]
  | some r =>
    rw [body_of_part?_eq_some hpart, body_of_part?_eq_some ((part?_skipGaps _ ts).trans hpart)]

/-- Tokens that end with a line end, and gaps behind them, are read on their own before an anchor. -/
theorem stops_append {gaps tail : List Token} (hanchor : ∀ t ∈ tail.head?, isAnchor t)
    (hlast : ∀ x ∈ ts.getLast?, x.kind = .newline) (hgaps : ∀ g ∈ gaps, isGap g) :
    Stops (ts ++ gaps) tail where
  anchor := hanchor
  closed := by
    rintro - t us ⟨before, hcut⟩ ht
    rcases List.append_eq_append_iff.1 hcut with ⟨mid, hts, hmid⟩ | ⟨mid, -, hmid⟩
    · cases mid with
      | nil =>
        have hmem : t ∈ gaps := by
          rw [List.nil_append] at hmid
          rw [← hmid]
          exact List.mem_cons_self
        rw [hgaps t hmem] at ht
        simp at ht
      | cons m mid =>
        obtain ⟨rfl, rfl⟩ := List.cons.inj hmid
        cases hend : mid.getLast? with
        | none =>
          obtain rfl := List.getLast?_eq_none_iff.1 hend
          have hnewline := hlast t (by simp [hts])
          simp [isGap, hnewline] at ht
        | some n =>
          refine ⟨n, List.mem_append_left _ (List.mem_of_getLast? hend), hlast n ?_⟩
          rw [hts, List.getLast?_append, List.getLast?_cons, hend]
          simp
    · have hmem : t ∈ gaps := by
        rw [hmid]
        simp
      rw [hgaps t hmem] at ht
      simp at ht

/-! ## The child -/

section
variable {t : Token} (h : isChildHeader t)
include h

theorem isBlock_of_isChildHeader : t.kind.isBlock := by
  rcases kind_of_isChildHeader h with hk | hk <;> rw [hk] <;> rfl

theorem isKeyword_of_isChildHeader : t.kind.isKeyword := by
  rcases kind_of_isChildHeader h with hk | hk <;> rw [hk] <;> rfl

theorem isAnchor_of_isChildHeader : isAnchor t := by
  rcases kind_of_isChildHeader h with hk | hk <;> simp [isAnchor, hk]

theorem inTagRun_of_isChildHeader : inTagRun t = false := by
  rcases kind_of_isChildHeader h with hk | hk <;> simp [inTagRun, isGap, hk]

theorem isGap_of_isChildHeader : isGap t = false :=
  (Bool.or_eq_false_iff.1 (inTagRun_of_isChildHeader h)).1

end

def Fills (t : Token) : Prop := t.kind.isBlock = false ∧ t.kind ≠ .tag ∧ t.kind ≠ .eof

/-- Steps and what is skipped among them are all there is where nothing opens a block. -/
theorem rest_steps_eq_nil (source : List Char) (h : ∀ t ∈ ts, Fills t) :
    (steps source ts).rest = [] := by
  fun_induction steps source ts with
  | case1 => rfl
  | case2 ts t more hgaps k _ first _ others ih =>
    have hrest : first.rest <:+ ts := suffix_of_skipGaps hgaps (step_suffix source k t more)
    exact ih fun u hu => h u (hrest.subset hu)
  | case3 ts t more hgaps =>
    have hmore : t :: more <:+ ts := hgaps ▸ skipGaps_suffix ts
    apply List.dropWhile_eq_nil_iff.2
    intro u hu
    obtain ⟨hblock, htag, -⟩ := h u (hmore.subset (List.mem_cons_of_mem t hu))
    unfold isAnchor
    cases hkind : u.kind with
    | block b => simp [hkind, TokenKind.isBlock] at hblock
    | tag => exact absurd hkind htag
    | _ => rfl
  | case4 ts t more hgaps hstep hfault =>
    exfalso
    have hmore : t :: more <:+ ts := hgaps ▸ skipGaps_suffix ts
    obtain ⟨hblock, htag, heof⟩ := h t (hmore.subset List.mem_cons_self)
    have hgap := isGap_of_skipGaps hgaps
    cases hkind : t.kind with
    | block b => simp [hkind, TokenKind.isBlock] at hblock
    | step k => exact hstep k hkind
    | tag => exact htag hkind
    | eof => exact heof hkind
    | comment | newline => simp [isGap, hkind] at hgap
    | tableRow | docString | text | quotedString | placeholder => simp [hkind, nonStepFault?] at hfault

/-- A child takes all tokens that fill it, and none of the tags and the header of the next one. -/
theorem child_filled (source : List Char) (tags : List String) {t u : Token}
    {mid gaps tail : List Token} (ht : isChildHeader t) (hmid : ∀ x ∈ mid, Fills x)
    (hgaps : ∀ g ∈ gaps, isGap g)
    (hlast : ∀ x ∈ (t :: mid).getLast?, x.kind = .newline) (hanchor : ∀ x ∈ tail.head?, isAnchor x)
    (hskip : skipTags tail = u :: more) (hu : isChildHeader u) :
    (child source tags t (mid ++ gaps ++ tail)).rest = tail ∧
      LocatedIn (t :: mid) (child source tags t (mid ++ gaps ++ tail)).errors := by
  have hgap := isGap_of_isChildHeader ht
  have hstops : Stops (t :: (mid ++ gaps)) tail := by
    rw [← List.cons_append]
    exact stops_append hanchor hlast hgaps
  have hfills : ∀ x ∈ skipHeader source (mid ++ gaps), Fills x := by
    intro x hx
    rcases List.mem_append.1 ((skipHeader_suffix source _).subset hx) with hx | hx
    · exact hmid x hx
    · rcases kind_of_isGap (hgaps x hx) with hk | hk <;> simp [Fills, hk, TokenKind.isBlock]
  -- The steps go on to the end of what fills the child, so the blocks of examples start at the tail.
  have hnil := rest_steps_eq_nil source hfills
  have hempty : exampleBlocks source false [] = ⟨[], [], []⟩ := exampleBlocks_of_skipTags_eq_nil rfl
  have hblocks : exampleBlocks source false tail = ⟨[], [], tail⟩ := by
    rcases kind_of_isChildHeader hu with hk | hk
    · exact exampleBlocks_of_stop hskip (by rw [hk]; rfl) (by simp [hk])
    · exact exampleBlocks_of_stop hskip (by rw [hk]; rfl) (by simp [hk])
  have hchild : child source tags t (mid ++ gaps ++ tail) =
      (child source tags t (mid ++ gaps)).before tail := by
    refine child_append_of_blocks hstops hgap ?_
    rw [hnil, List.nil_append, hblocks, hempty]
    rfl
  have hrest : (child source tags t (mid ++ gaps)).rest = [] := by
    unfold child
    dsimp only
    rw [hnil, hempty]
    split <;> rfl
  rw [hchild]
  refine ⟨congrArg (· ++ tail) hrest, fun e he => ?_⟩
  obtain ⟨x, hx, hxgap, hlocation⟩ := locatedIn_child tags hgap (mid ++ gaps) e he
  rw [← List.cons_append] at hx
  rcases List.mem_append.1 hx with hx | hx
  · exact ⟨x, hx, hxgap, hlocation⟩
  · rw [hgaps x hx] at hxgap
    simp at hxgap

theorem location_child (source : List Char) (tags : List String) (t : Token) (ts : List Token) :
    (child source tags t ts).value.location = t.location := by
  unfold child
  dsimp only
  split <;> rfl

/-- Reading on from tags and the header of a child that is filled: the child is added, and the rest is
read as if the child had not been there. -/
theorem exists_body_filled (source : List Char) (f : Feature) {t u : Token} {run mid β : List Token}
    (hrun : ∀ x ∈ run, inTagRun x) (ht : isChildHeader t) (hmid : ∀ x ∈ mid, Fills x)
    (hlast : ∀ x ∈ (t :: mid).getLast?, x.kind = .newline)
    (hskip : skipTags β = u :: more) (hu : isChildHeader u) :
    ∃ c errors, c.location = t.location ∧ LocatedIn (t :: mid) errors ∧
      body source f (run ++ t :: (mid ++ β)) =
        Prod.map id (errors ++ ·) (body source (f.add (.child c)) β) := by
  have hskip' : skipTags (run ++ t :: (mid ++ β)) = t :: (mid ++ β) :=
    skipTags_of_inTagRun hrun (inTagRun_of_isChildHeader ht)
  -- The gaps before the tags go with the child; what is left then starts with an anchor.
  have hβ : mid ++ β = mid ++ β.takeWhile isGap ++ skipGaps β := by
    rw [List.append_assoc]
    exact congrArg _ List.takeWhile_append_dropWhile.symm
  have hanchor : ∀ x ∈ (skipGaps β).head?, isAnchor x := by
    intro x hx
    obtain ⟨xs, hxs⟩ : ∃ xs, skipGaps β = x :: xs := List.head?_eq_some_iff.1 hx
    have hgap := isGap_of_skipGaps hxs
    by_cases htag : x.kind = .tag
    · simp [isAnchor, htag]
    · have hx' : skipTags (skipGaps β) = x :: xs := by
        rw [hxs]
        exact List.dropWhile_cons_of_neg (by simp [inTagRun, hgap, htag])
      rw [skipTags_skipGaps, hskip] at hx'
      rw [← (List.cons.inj hx').1]
      exact isAnchor_of_isChildHeader hu
  obtain ⟨tags, htags⟩ : ∃ tags, (tagRun (run ++ t :: (mid ++ β))).tags = tags := ⟨_, rfl⟩
  obtain ⟨hrest, herrors⟩ := child_filled source tags ht hmid (fun g hg => List.mem_takeWhile_imp hg)
    hlast hanchor ((skipTags_skipGaps β).trans hskip) hu
  rw [← hβ] at hrest herrors
  refine ⟨_, _, location_child source tags t (mid ++ β), herrors, ?_⟩
  rw [body_of_child hskip' (kind_of_isChildHeader ht), htags]
  dsimp only
  rw [hrest, body_skipGaps]
  rfl

end Gherkin.Reader
