import Gherkin.Proofs.Document.ErrorOrder
import Gherkin.Proofs.Document.Filling
import Gherkin.Proofs.Document.Joining

/-!
# Recovery is local

What stands between the header of a child and the tags of the next one, faulty or not, has no effect
on what is read before the header and after it, apart from the places of what comes after.
-/

namespace Gherkin

namespace Reader

/-! ## A document with a feature -/

/-- Where a document starts wrong, the fault is located at its first token. -/
theorem locatedIn_headerFault {ts more : List Token} {t : Token} (h : skipTags ts = t :: more)
    (finish : Location) (tail : List Token) : LocatedIn ts (headerFault finish (ts ++ tail)) := by
  have hmore : t :: more <:+ ts := h ▸ skipTags_suffix ts
  unfold headerFault
  rw [skipTags_append_of_cons h]
  dsimp only
  split
  · exact LocatedIn.nil
  · exact LocatedIn.cons (hmore.subset List.mem_cons_self) (isGap_of_skipTags h) rfl LocatedIn.nil

/-- The feature of a header that stands just before `more`, before anything of it is read. -/
def opened (source : List Char) (tags : List String) (t : Token) (more : List Token) : Feature where
  name := titleOf source t
  description := headerDescription source more
  tags := tags
  background := none
  children := []
  location := t.location

theorem parse_eq_ok {source : String} {tags : List String} {t : Token} {more : List Token}
    (h : header? (live (tokens .english source)) = some (tags, t, more)) :
    parse source =
      let read := body source.toList (opened source.toList tags t more) (skipHeader source.toList more)
      .ok ⟨read.1, ParseError.inOrder (headerFault (finish source.toList (tokens .english source))
        (live (tokens .english source)) ++ read.2 ++
          (lexicalErrors .english source).map ParseError.ofLexical)⟩ := by
  rw [parse_eq]
  unfold Parsed.ofLive
  dsimp only
  rw [h]
  rfl

/-! ## Before the child -/

theorem opened_append {source : List Char} {tags : List String} {t : Token} {ts tail : List Token}
    (h : Stops (t :: ts) tail) (ht : isGap t = false) :
    opened source tags t (ts ++ tail) = opened source tags t ts := by
  unfold opened
  rw [headerDescription_append h ht]

theorem opened_front {as more : List Char} (tags : List String) {t : Token} {ts : List Token}
    (ht : (View.front as more).Shows t) (hk : t.kind.isKeyword)
    (h : ∀ u ∈ ts, (View.front as more).Shows u) :
    opened (as ++ more) tags t ts = opened as tags t ts := by
  unfold opened
  rw [headerDescription_front h, show titleOf (as ++ more) t = titleOf as t from ht.title hk]

/-- The parts that stand in a text are read from it whatever text follows. -/
theorem exists_leaves_front (as : List Char) (ts : List Token) :
    ∃ (parts : List FeaturePart) (errors : List ParseError) (run : List Token),
      (∀ t ∈ run, inTagRun t) ∧ ∀ more, (∀ t ∈ ts, (View.front as more).Shows t) →
        Leaves (as ++ more) none ts parts errors run := by
  obtain ⟨parts, errors, run, hrun, -, hleaves⟩ := exists_leaves as none ts
  refine ⟨parts.map (FeaturePart.relocate (Location.moved 0 0)),
    errors.map (ParseError.relocate (Location.moved 0 0)), run, hrun, fun more hshows => ?_⟩
  have h := hleaves (View.front as more) rfl hshows
  rwa [View.token_front, List.map_id, List.map_id] at h

theorem stops_nil (ts : List Token) : Stops ts [] := ⟨by simp, by simp⟩

theorem locatedIn_of_leaves {source : List Char} {bar : Option OrderFault} {ts run : List Token}
    {parts : List FeaturePart} {errors : List ParseError} (h : Leaves source bar ts parts errors run)
    (f : Feature) (hf : backgroundFault? f = bar) : LocatedIn ts errors := by
  have hbody := h f [] hf (stops_nil ts) (by simp [BeforeChild])
  have hlocated := locatedIn_body source f (ts ++ [])
  rw [hbody, List.append_nil] at hlocated
  exact fun e he => hlocated e (List.mem_append_left _ he)

section
variable {a : String} {before after : List Token} {t : Token}

/-- The line of the header starts behind a line end. -/
theorem kind_of_getLast?_before (hlive : live (tokens .english a) = before ++ t :: after)
    (ht : isChildHeader t) : ∀ x ∈ before.getLast?, x.kind = .newline := by
  obtain ⟨finish, -, -, hlaid⟩ := laid_live a
  rw [hlive] at hlaid
  exact getLast?_of_laid (isKeyword_of_isChildHeader ht) hlaid

theorem stops_before (hlive : live (tokens .english a) = before ++ t :: after) (ht : isChildHeader t)
    (rest : List Token) : Stops before (t :: rest) := by
  have hanchor : ∀ x ∈ (t :: rest).head?, isAnchor x := by
    intro x hx
    obtain rfl : t = x := by simpa using hx
    exact isAnchor_of_isChildHeader ht
  have h : Stops (before ++ []) (t :: rest) :=
    stops_append hanchor (kind_of_getLast?_before hlive ht) (by simp)
  rwa [List.append_nil] at h

theorem beforeChild_cons (ht : isChildHeader t) (rest : List Token) : BeforeChild (t :: rest) := by
  intro x hx
  obtain rfl : t = x := by simpa using hx
  exact kind_of_isChildHeader ht

/-- The text at a token before another one is there whatever follows. -/
theorem shows_before (hlast : a.toList.getLast? = some '\n')
    (hlive : live (tokens .english a) = before ++ t :: after) (more : List Char) :
    ∀ u ∈ before, (View.front a.toList more).Shows u := by
  intro u hu
  have hoffset : ∀ x ∈ before ++ t :: after, x.location.offset < Text.byteLength a.toList := by
    intro x hx
    rw [← hlive] at hx
    exact offset_lt_of_mem_live hx
  have hpairs := pairwise_stop_live a
  rw [hlive] at hpairs
  have hstop := (List.pairwise_append.1 hpairs).2.2 u hu t List.mem_cons_self
  have hnext := hoffset t (by simp)
  exact View.shows_front more hlast (hoffset u (List.mem_append_left _ hu)) fun _ => by omega

/-- What is read before the last child of a text of whole lines does not depend on what follows its
header. -/
theorem exists_front (hlast : a.toList.getLast? = some '\n')
    (hlive : live (tokens .english a) = before ++ t :: after)
    (hfeature : ∃ f ∈ before, f.kind = .block .feature) (ht : isChildHeader t) :
    ∃ f errors run, (∀ x ∈ run, inTagRun x) ∧ LocatedIn before errors ∧
      ∀ more rest, ∃ tags h us, header? (before ++ t :: rest) = some (tags, h, us) ∧
        body (a.toList ++ more) (opened (a.toList ++ more) tags h us) (skipHeader (a.toList ++ more) us) =
          Prod.map id (errors ++ ·) (body (a.toList ++ more) f (run ++ t :: rest)) := by
  obtain ⟨tags, h, us, hheader⟩ := exists_header? hfeature
  obtain ⟨first, hbefore, hk, -⟩ := eq_append_of_header? hheader
  have hsuffix : h :: us <:+ before := ⟨first, hbefore.symm⟩
  have hus : us <:+ before := (List.suffix_cons h us).trans hsuffix
  have hskipped : skipHeader a.toList us <:+ before := (skipHeader_suffix _ us).trans hus
  have hgap : isGap h = false := by simp [isGap, hk]
  obtain ⟨parts, errors, run, hrun, hleaves⟩ := exists_leaves_front a.toList (skipHeader a.toList us)
  have hread : ∀ more, Leaves (a.toList ++ more) none (skipHeader a.toList us) parts errors run :=
    fun more => hleaves more fun u hu => shows_before hlast hlive more u (hskipped.subset hu)
  refine ⟨(opened a.toList tags h us).addAll parts, errors, run, hrun, ?_, fun more rest => ?_⟩
  · exact (locatedIn_of_leaves (hread []) (opened a.toList tags h us) rfl).mono hskipped.subset
  · have hstops := stops_before hlive ht rest
    have hshows := shows_before hlast hlive more
    have hafter : ∀ u ∈ us, (View.front a.toList more).Shows u := fun u hu => hshows u (hus.subset hu)
    refine ⟨tags, h, us ++ t :: rest, header?_append hheader _, ?_⟩
    rw [opened_append (hstops.of_suffix hsuffix) hgap,
      opened_front tags (hshows h (hsuffix.subset List.mem_cons_self)) (by rw [hk]; rfl) hafter,
      skipHeader_append (hstops.of_suffix hsuffix) hgap, skipHeader_front hafter]
    exact hread more _ _ rfl (hstops.of_suffix hskipped) (beforeChild_cons ht rest)

end

/-! ## After the child -/

/-- What is read of a text behind another is what is read of it on its own, further on. -/
theorem exists_back (b : List Char) (bar : Option OrderFault) (hbar : bar ≠ none) (ts : List Token) :
    ∃ (rest : List Child) (errors : List ParseError), ∀ as f, backgroundFault? f = bar →
      body (as ++ b) f (ts.map (View.back as b).token) =
        ({ f with children := f.children ++ rest.map (Child.relocate (Location.behind as)) },
          errors.map (ParseError.relocate (Location.behind as))) := by
  obtain ⟨parts, errors, run, htags, hchildren, hleaves⟩ := exists_leaves b bar ts
  refine ⟨parts.filterMap FeaturePart.child?, errors ++ (tagRun run).stray, fun as f hf => ?_⟩
  have hchildren' : ∀ p ∈ parts.map (FeaturePart.relocate (Location.behind as)), p.child?.isSome := by
    intro p hp
    obtain ⟨q, hq, rfl⟩ := List.mem_map.1 hp
    rw [FeaturePart.child?_relocate, Option.isSome_map]
    exact hchildren hbar q hq
  have hrest : (parts.map (FeaturePart.relocate (Location.behind as))).filterMap FeaturePart.child? =
      (parts.filterMap FeaturePart.child?).map (Child.relocate (Location.behind as)) := by
    rw [List.filterMap_map, List.map_filterMap]
    exact List.filterMap_congr fun p _ => p.child?_relocate _
  have hskip : skipTags (run.map (View.back as b).token) = [] := by
    rw [skipTags_map, skipTags_eq_nil_iff.2 htags]
    rfl
  have hbody := hleaves (View.back as b) rfl (fun t _ => View.shows_back as b t) f [] hf (stops_nil _)
    (by simp [BeforeChild])
  rw [List.append_nil, List.append_nil, body_of_skipTags_eq_nil hskip, stray_map] at hbody
  refine hbody.trans ?_
  show (f.addAll (parts.map (FeaturePart.relocate (Location.behind as))), _) = _
  rw [f.addAll_eq_of_children hchildren', hrest, List.map_append]
  rfl

/-! ## Around the child -/

theorem backgroundFault?_add_child (f : Feature) (c : Child) :
    backgroundFault? (f.add (.child c)) = (backgroundFault? f).or (some .lateBackground) :=
  @backgroundFault?_addAll f (some (.child c)) (Or.inr (by simp [FeaturePart.child?]))

section
variable {a b : String} {before after more : List Token} {t u : Token}

/-- The parts before and behind the child that the last line of `a` opens do not depend on the tokens
that fill it. -/
theorem exists_body_around (hlast : a.toList.getLast? = some '\n')
    (hlive : live (tokens .english a) = before ++ t :: after)
    (hfeature : ∃ f ∈ before, f.kind = .block .feature) (ht : isChildHeader t)
    (hskip : skipTags (live (tokens .english b)) = u :: more) (hu : isChildHeader u) :
    ∃ (f : Feature) (rest : List Child) (errors faults : List ParseError), LocatedIn before errors ∧
      ∀ (s : List Char) (mid : List Token), (∀ x ∈ (t :: mid).getLast?, x.kind = .newline) →
        (∀ x ∈ mid, Fills x) → ∃ tags h us c childErrors,
          header? (before ++ t :: (mid ++ (live (tokens .english b)).map
            (View.back (a.toList ++ s) b.toList).token)) = some (tags, h, us) ∧
          c.location = t.location ∧ LocatedIn (t :: mid) childErrors ∧
          body (a.toList ++ s ++ b.toList) (opened (a.toList ++ s ++ b.toList) tags h us)
              (skipHeader (a.toList ++ s ++ b.toList) us) =
            ({ f with children :=
                f.children ++ c :: rest.map (Child.relocate (Location.behind (a.toList ++ s))) },
              errors ++ (childErrors ++ faults.map
                (ParseError.relocate (Location.behind (a.toList ++ s))))) := by
  obtain ⟨f, errors, run, hrun, herrors, hfront⟩ := exists_front hlast hlive hfeature ht
  -- After a child no background is added, whatever the feature holds already.
  have hbar : (backgroundFault? f).or (some .lateBackground) ≠ none := by
    cases backgroundFault? f <;> simp
  obtain ⟨rest, faults, hback⟩ := exists_back b.toList _ hbar (live (tokens .english b))
  refine ⟨f, rest, errors, faults, herrors, fun s mid hnewline hmid => ?_⟩
  obtain ⟨tags, h, us, hheader, hbody⟩ := hfront (s ++ b.toList)
    (mid ++ (live (tokens .english b)).map (View.back (a.toList ++ s) b.toList).token)
  rw [← List.append_assoc] at hbody
  obtain ⟨c, childErrors, hc, hlocated, hfilled⟩ :=
    exists_body_filled (a.toList ++ s ++ b.toList) f hrun ht hmid hnewline
      (skipTags_map_cons hskip (View.back (a.toList ++ s) b.toList)) hu
  have hafter := hback (a.toList ++ s) (f.add (.child c)) (backgroundFault?_add_child f c)
  rw [hfilled, hafter] at hbody
  refine ⟨tags, h, us, c, childErrors, hheader, hc, hlocated, ?_⟩
  rw [hbody]
  simp [Feature.add, Prod.map]

/-- Of errors located in the whole lines `as` and errors of the text behind, those of the text behind
are left. -/
theorem behind_inOrder_append {as : List Char} {ts : List Token} {front lexical : List ParseError}
    (hts : ∀ t ∈ ts, t.location.offset < Text.byteLength as) (hfront : LocatedIn ts front)
    (hlexical : ∀ e ∈ lexical, e.location.offset < Text.byteLength as)
    (back backLexical : List ParseError) :
    ParseError.behind (Text.byteLength as) (ParseError.inOrder
        (front ++ back.map (ParseError.relocate (Location.behind as)) ++
          (lexical ++ backLexical.map (ParseError.relocate (Location.behind as))))) =
      (ParseError.inOrder (back ++ backLexical)).map (ParseError.relocate (Location.behind as)) := by
  have hfront' : ∀ e ∈ front, e.location.offset < Text.byteLength as := by
    intro e he
    obtain ⟨t, ht, -, hlocation⟩ := hfront e he
    rw [hlocation]
    exact hts t ht
  rw [ParseError.behind_inOrder, ← ParseError.inOrder_map (Location.le_behind _)]
  simp only [ParseError.behind_append, List.map_append]
  rw [ParseError.behind_eq_nil hfront', ParseError.behind_eq_nil hlexical, ParseError.behind_relocate,
    ParseError.behind_relocate]
  rfl

theorem exists_skipTags_eq_cons {ts : List Token} (h : ∃ f ∈ ts, f.kind = .block .feature) :
    ∃ t more, skipTags ts = t :: more := by
  obtain ⟨f, hf, hk⟩ := h
  cases hskip : skipTags ts with
  | nil => exact absurd hk (ne_feature_of_inTagRun (skipTags_eq_nil_iff.1 hskip f hf))
  | cons t more => exact ⟨t, more, rfl⟩

/-- The feature around the child, and the errors behind it, whatever fills the child. -/
theorem exists_recovered (hlast : a.toList.getLast? = some '\n')
    (hlive : live (tokens .english a) = before ++ t :: after)
    (hfeature : ∃ f ∈ before, f.kind = .block .feature) (ht : isChildHeader t)
    (hmark : b.toList.head? ≠ some Scan.byteOrderMark)
    (hskip : skipTags (live (tokens .english b)) = u :: more) (hu : isChildHeader u) :
    ∃ (f : Feature) (rest : List Child) (errors : List ParseError), ∀ s mid,
      (a ++ s).toList.getLast? = some '\n' → Scan.Terminated (Scan.all .english (a ++ s)) →
      live (tokens .english (a ++ s)) = before ++ t :: mid → (∀ x ∈ mid, Fills x) →
      ∃ c es, c.location = t.location ∧
        parse (a ++ s ++ b) = .ok ⟨{ f with
          children := f.children ++
            c :: rest.map (Child.relocate (Location.behind (a ++ s).toList)) }, es⟩ ∧
        ParseError.behind (Text.byteLength (a ++ s).toList) es =
          errors.map (ParseError.relocate (Location.behind (a ++ s).toList)) := by
  obtain ⟨f, rest, errors, faults, herrors, haround⟩ :=
    exists_body_around hlast hlive hfeature ht hskip hu
  refine ⟨f, rest,
    ParseError.inOrder (faults ++ (lexicalErrors .english b).map ParseError.ofLexical), ?_⟩
  intro s mid hwhole hterminated hpre hmid
  obtain ⟨htokens, hlexical⟩ := live_append_of_head? hwhole hterminated hmark
  rw [hpre, List.append_assoc, List.cons_append] at htokens
  have hnewline : ∀ x ∈ (t :: mid).getLast?, x.kind = .newline := by
    obtain ⟨n, hn, hkind⟩ := getLast?_live hwhole
    rw [hpre, List.getLast?_append_of_ne_nil _ (List.cons_ne_nil t mid)] at hn
    intro x hx
    rw [hn] at hx
    rwa [← Option.some.inj hx]
  obtain ⟨tags, h, us, c, childErrors, hheader, hc, hlocated, hbody⟩ :=
    haround s.toList mid hnewline hmid
  rw [← String.toList_append] at hheader hbody
  rw [← String.toList_append] at hbody
  have hparse := parse_eq_ok ((congrArg header? htokens).trans hheader)
  dsimp only at hparse
  rw [hbody, hlexical, htokens] at hparse
  refine ⟨c, _, hc, hparse, ?_⟩
  -- Everything but what is read behind the whole lines is located in them.
  have hoffset : ∀ x ∈ before ++ t :: mid, x.location.offset < Text.byteLength (a ++ s).toList := by
    intro x hx
    rw [← hpre] at hx
    exact offset_lt_of_mem_live hx
  have hlexical' : ∀ e ∈ (lexicalErrors .english (a ++ s)).map ParseError.ofLexical,
      e.location.offset < Text.byteLength (a ++ s).toList := by
    intro e he
    obtain ⟨e', he', rfl⟩ := List.mem_map.1 he
    exact offset_lt_of_mem_lexicalErrors he'
  obtain ⟨first, firsts, hfirst⟩ := exists_skipTags_eq_cons hfeature
  dsimp only
  rw [← List.append_assoc errors, ← List.append_assoc (headerFault _ _) (errors ++ childErrors)]
  refine behind_inOrder_append hoffset ?_ hlexical' faults _
  rw [← List.append_assoc]
  exact (((locatedIn_headerFault hfirst _ _).append herrors).mono (List.subset_append_left _ _)).append
    (hlocated.mono (List.subset_append_right _ _))

end

end Reader

/-- Whole lines `a` end with the header of a scenario or an outline inside a feature, and whole lines
`s` follow that hold no keyword of a block and no tag.  No doc string is left open.  The header is a
token of the whole, so no doc string of `a` goes over it. -/
structure FillsChild (a s : String) : Prop where
  header_whole : a.toList.getLast? = some '\n'
  filler_whole : s = "" ∨ s.toList.getLast? = some '\n'
  closed : ∀ e ∈ lexicalErrors .english (a ++ s), e.fault ≠ .unterminatedDocString
  header : ∃ before t after, tokens .english (a ++ s) = before ++ t :: after ∧
    (∃ f ∈ before, f.kind = .block .feature) ∧ Reader.isChildHeader t ∧
      t.location.line = a.toList.count '\n' ∧ ∀ u ∈ after, u.kind.isBlock = false ∧ u.kind ≠ .tag

/-- The first token that is no line end, no comment and no tag is the header of a scenario or an
outline. -/
structure OpensChild (b : String) : Prop where
  unmarked : b.toList.head? ≠ some Scan.byteOrderMark
  header : ∃ run u more, tokens .english b = run ++ u :: more ∧ (∀ x ∈ run, Reader.inTagRun x) ∧
    Reader.isChildHeader u

/-- Two parses, of sources that go on with the same text behind `as` and behind `bs`.  Their features
are the same but for one child, whose header is on the same `line`, and the children and the errors
behind are the same up to the shift of their locations. -/
structure Parsed.AgreeAround (line : Nat) (as bs : List Char) (p q : Parsed) : Prop where
  feature : { p.feature with children := [] } = { q.feature with children := [] }
  children : ∃ (before : List Child) (c d : Child) (rest : List Child),
    c.location = d.location ∧ c.location.line = line ∧
      p.feature.children = before ++ c :: rest.map (Child.relocate (Location.behind as)) ∧
        q.feature.children = before ++ d :: rest.map (Child.relocate (Location.behind bs))
  errors : ∃ errors : List ParseError,
    ParseError.behind (Text.byteLength as) p.errors =
        errors.map (ParseError.relocate (Location.behind as)) ∧
      ParseError.behind (Text.byteLength bs) q.errors =
        errors.map (ParseError.relocate (Location.behind bs))

namespace FillsChild

variable {a s : String}

theorem whole (h : FillsChild a s) : (a ++ s).toList.getLast? = some '\n' := by
  rw [String.toList_append]
  rcases h.filler_whole with rfl | hs
  · simpa using h.header_whole
  · rw [List.getLast?_append, hs]
    rfl

/-- The header stands in the first text, whatever follows. -/
theorem exists_live (h : FillsChild a s) : ∃ before t after mid,
    Reader.live (tokens .english a) = before ++ t :: after ∧
      Reader.live (tokens .english (a ++ s)) = before ++ t :: mid ∧
      (∃ f ∈ before, f.kind = .block .feature) ∧ Reader.isChildHeader t ∧
      t.location.line = a.toList.count '\n' ∧ after ⊆ mid ∧ ∀ x ∈ mid, Reader.Fills x := by
  obtain ⟨before, t, after, htokens, hfeature, ht, hline, hquiet⟩ := h.header
  have hblock := Reader.isBlock_of_isChildHeader ht
  have hclosed := Scan.terminated_all_of_block h.header_whole hblock hline
    (htokens ▸ by simp) (Scan.terminated_all_iff.2 h.closed)
  obtain ⟨behind, hlive, hbehind⟩ := Reader.exists_live_append h.header_whole hclosed s
  obtain ⟨mid, hmid, hlive'⟩ := Reader.exists_live_eq htokens fun heof => by
    simp [heof, TokenKind.isBlock] at hblock
  obtain ⟨-, -, -, hlaid⟩ := Reader.laid_live (a ++ s)
  have hfills : ∀ x ∈ mid, Reader.Fills x := by
    intro x hx
    obtain ⟨hxblock, hxtag⟩ := hquiet x (hmid hx)
    refine ⟨hxblock, hxtag, hlaid.ne_eof x ?_⟩
    rw [hlive']
    exact List.mem_append_right _ (List.mem_cons_of_mem t hx)
  -- What comes from the filler is on later lines than the header.
  have hnot : t ∉ behind := by
    intro hmem
    have hlater := hbehind t hmem
    omega
  rw [hlive] at hlive'
  rcases List.append_eq_append_iff.1 hlive' with ⟨m, -, hm⟩ | ⟨m, ha, hm⟩
  · exact absurd (by rw [hm]; simp) hnot
  · cases m with
    | nil => exact absurd (by rw [← List.nil_append behind, ← hm]; exact List.mem_cons_self) hnot
    | cons t' m =>
      obtain ⟨rfl, hcut⟩ := List.cons.inj hm
      refine ⟨before, t, m, mid, ha, by rw [hlive, hlive'], hfeature, ht, hline, ?_, hfills⟩
      rw [hcut]
      exact List.subset_append_left m behind

end FillsChild

/-- There is one last keyword of a block. -/
theorem eq_of_last_block {before before' after after' : List Token} {t t' : Token}
    (h : before ++ t :: after = before' ++ t' :: after') (ht : t.kind.isBlock) (ht' : t'.kind.isBlock)
    (hafter : ∀ x ∈ after, x.kind.isBlock = false) (hafter' : ∀ x ∈ after', x.kind.isBlock = false) :
    before = before' ∧ t = t' := by
  rcases List.append_eq_append_iff.1 h with ⟨m, hm, hcut⟩ | ⟨m, hm, hcut⟩
  · cases m with
    | nil => exact ⟨by rw [hm, List.append_nil], (List.cons.inj hcut).1⟩
    | cons x m =>
      have hfalse := hafter t' (by rw [(List.cons.inj hcut).2]; simp)
      rw [ht'] at hfalse
      simp at hfalse
  · cases m with
    | nil => exact ⟨by rw [hm, List.append_nil], (List.cons.inj hcut).1.symm⟩
    | cons x m =>
      have hfalse := hafter' t (by rw [(List.cons.inj hcut).2]; simp)
      rw [ht] at hfalse
      simp at hfalse

theorem OpensChild.exists_skipTags {b : String} (h : OpensChild b) :
    ∃ u more,
      Reader.skipTags (Reader.live (tokens .english b)) = u :: more ∧ Reader.isChildHeader u := by
  obtain ⟨run, u, more, htokens, hrun, hu⟩ := h.header
  have hk := Reader.kind_of_isChildHeader hu
  have hlive : Reader.live (tokens .english b) = run ++ u :: Reader.live more := by
    unfold Reader.live
    rw [htokens, List.takeWhile_append_of_pos, List.takeWhile_cons_of_pos]
    · rcases hk with hk | hk <;> simp [hk]
    · intro x hx
      have hx' := hrun x hx
      cases hkind : x.kind <;> simp [Reader.inTagRun, Reader.isGap, hkind] at hx' ⊢
  refine ⟨u, Reader.live more, ?_, hu⟩
  rw [hlive]
  exact Reader.skipTags_of_inTagRun hrun (Reader.inTagRun_of_isChildHeader hu)

/-- Whatever fills the child that the last line of a text opens, before a text that starts with the
header of a child: the two parses agree but for that child. -/
theorem recovery_is_local {a s₁ s₂ b : String} (h₁ : FillsChild a s₁) (h₂ : FillsChild a s₂)
    (hb : OpensChild b) :
    ∃ p₁ p₂, parse (a ++ s₁ ++ b) = .ok p₁ ∧ parse (a ++ s₂ ++ b) = .ok p₂ ∧
      p₁.AgreeAround (a.toList.count '\n') (a ++ s₁).toList (a ++ s₂).toList p₂ := by
  obtain ⟨before, t, after, mid₁, ha, hlive₁, hfeature, ht, hline, hsub₁, hmid₁⟩ := h₁.exists_live
  obtain ⟨before', t', after', mid₂, ha', hlive₂, -, ht', -, hsub₂, hmid₂⟩ := h₂.exists_live
  -- In the first text there is one last keyword of a block, so both fillers follow the same header.
  obtain ⟨rfl, rfl⟩ := eq_of_last_block (ha.symm.trans ha')
    (Reader.isBlock_of_isChildHeader ht) (Reader.isBlock_of_isChildHeader ht')
    (fun x hx => (hmid₁ x (hsub₁ hx)).1) fun x hx => (hmid₂ x (hsub₂ hx)).1
  obtain ⟨u, more, hskip, hu⟩ := hb.exists_skipTags
  obtain ⟨f, rest, errors, hrecovered⟩ :=
    Reader.exists_recovered h₁.header_whole ha hfeature ht hb.unmarked hskip hu
  obtain ⟨c₁, es₁, hc₁, hparse₁, herrors₁⟩ :=
    hrecovered s₁ mid₁ h₁.whole (Scan.terminated_all_iff.2 h₁.closed) hlive₁ hmid₁
  obtain ⟨c₂, es₂, hc₂, hparse₂, herrors₂⟩ :=
    hrecovered s₂ mid₂ h₂.whole (Scan.terminated_all_iff.2 h₂.closed) hlive₂ hmid₂
  exact ⟨_, _, hparse₁, hparse₂, rfl,
    ⟨f.children, c₁, c₂, rest, hc₁.trans hc₂.symm, by rw [hc₁, hline], rfl, rfl⟩,
    errors, herrors₁, herrors₂⟩

set_option maxRecDepth 4000 in
/-- A stray row after the header, or nothing. -/
theorem recovery_is_local_of_stray_row :
    FillsChild "Feature: f\nScenario: s\n" "" ∧ FillsChild "Feature: f\nScenario: s\n" "| x |\n" ∧
      OpensChild "@t\nScenario: u\n" ∧
        ∃ p₁ p₂, parse ("Feature: f\nScenario: s\n" ++ "" ++ "@t\nScenario: u\n") = .ok p₁ ∧
          parse ("Feature: f\nScenario: s\n" ++ "| x |\n" ++ "@t\nScenario: u\n") = .ok p₂ ∧
            p₁.AgreeAround 2 ("Feature: f\nScenario: s\n" ++ "").toList
              ("Feature: f\nScenario: s\n" ++ "| x |\n").toList p₂ := by
  have hheader : tokens .english ("Feature: f\nScenario: s\n" ++ "") =
      [⟨.block .feature, "Feature", ⟨1, 1, 0⟩, 8, none⟩, ⟨.text, "f", ⟨1, 10, 9⟩, 10, none⟩,
        ⟨.newline, "\n", ⟨1, 11, 10⟩, 11, none⟩] ++
      ⟨.block .scenario, "Scenario", ⟨2, 1, 11⟩, 20, none⟩ ::
        [⟨.text, "s", ⟨2, 11, 21⟩, 22, none⟩, ⟨.newline, "\n", ⟨2, 12, 22⟩, 23, none⟩,
          ⟨.eof, "", ⟨3, 1, 23⟩, 23, none⟩] := by cbv
  have hrow : tokens .english ("Feature: f\nScenario: s\n" ++ "| x |\n") =
      [⟨.block .feature, "Feature", ⟨1, 1, 0⟩, 8, none⟩, ⟨.text, "f", ⟨1, 10, 9⟩, 10, none⟩,
        ⟨.newline, "\n", ⟨1, 11, 10⟩, 11, none⟩] ++
      ⟨.block .scenario, "Scenario", ⟨2, 1, 11⟩, 20, none⟩ ::
        [⟨.text, "s", ⟨2, 11, 21⟩, 22, none⟩, ⟨.newline, "\n", ⟨2, 12, 22⟩, 23, none⟩,
          ⟨.tableRow, "| x |", ⟨3, 1, 23⟩, 28, none⟩, ⟨.newline, "\n", ⟨3, 6, 28⟩, 29, none⟩,
          ⟨.eof, "", ⟨4, 1, 29⟩, 29, none⟩] := by cbv
  have hnext : tokens .english "@t\nScenario: u\n" =
      [⟨.tag, "@t", ⟨1, 1, 0⟩, 2, none⟩, ⟨.newline, "\n", ⟨1, 3, 2⟩, 3, none⟩] ++
      ⟨.block .scenario, "Scenario", ⟨2, 1, 3⟩, 12, none⟩ ::
        [⟨.text, "u", ⟨2, 11, 13⟩, 14, none⟩, ⟨.newline, "\n", ⟨2, 12, 14⟩, 15, none⟩,
          ⟨.eof, "", ⟨3, 1, 15⟩, 15, none⟩] := by cbv
  have h₁ : FillsChild "Feature: f\nScenario: s\n" "" := {
    header_whole := by decide
    filler_whole := Or.inl rfl
    closed := by
      rw [show lexicalErrors .english ("Feature: f\nScenario: s\n" ++ "") = [] by cbv]
      simp
    header := ⟨_, _, _, hheader, by decide, rfl, by decide, by decide⟩ }
  have h₂ : FillsChild "Feature: f\nScenario: s\n" "| x |\n" := {
    header_whole := by decide
    filler_whole := Or.inr (by decide)
    closed := by
      rw [show lexicalErrors .english ("Feature: f\nScenario: s\n" ++ "| x |\n") = [] by cbv]
      simp
    header := ⟨_, _, _, hrow, by decide, rfl, by decide, by decide⟩ }
  have hb : OpensChild "@t\nScenario: u\n" := ⟨by decide, _, _, _, hnext, by decide, rfl⟩
  exact ⟨h₁, h₂, hb, recovery_is_local h₁ h₂ hb⟩

end Gherkin
