import Mathlib
import Gherkin.Proofs.Document.Positions

/-!
# The passes of a parser

A parser goes over its tokens in loops.  A pass that does not leave its loop takes tokens from the front, none of
them an end of the source, so that every loop is left after finitely many passes, whatever the tokens are.  The
loop over blocks of examples goes back over tags only where it is left.

The tokens behind an end of the source are never read, and a missing end makes no difference.
-/

namespace Gherkin

namespace Parser

variable {p : Parser} {σ α : Type}

/-! ## Loops that are left -/

/-- What lies between two positions is taken from the front. -/
theorem State.exists_taken {s s' : State p} (h : s.position < s'.position) :
    ∃ taken, taken ≠ [] ∧ s.ahead = taken ++ s'.ahead := by
  have hlength : s'.position ≤ p.tokens.toList.length := s'.bound
  let taken := (p.tokens.toList.drop s.position).take (s'.position - s.position)
  have hdrop : p.tokens.toList.drop s.position = taken ++ p.tokens.toList.drop s'.position := by
    have hjoin := List.take_append_drop (s'.position - s.position) (p.tokens.toList.drop s.position)
    rw [List.drop_drop, Nat.add_sub_cancel' (Nat.le_of_lt h)] at hjoin
    exact hjoin.symm
  have hpassed : ∀ t ∈ taken, t.kind ≠ .eof := by
    intro t ht
    obtain ⟨i, hi, rfl⟩ := List.mem_iff_getElem.1 ht
    have hin : i < s'.position - s.position ∧ i < p.tokens.toList.length - s.position := by
      simpa only [taken, List.length_take, List.length_drop, Nat.lt_min] using hi
    simp only [taken, List.getElem_take, List.getElem_drop]
    exact s'.passed (s.position + i) (Nat.add_lt_of_lt_sub' hin.2) (Nat.add_lt_of_lt_sub' hin.1)
  refine ⟨taken, ?_, ?_⟩
  · apply List.ne_nil_of_length_pos
    simp only [taken, List.length_take, List.length_drop]
    omega
  · unfold ahead Reader.live
    rw [hdrop, List.takeWhile_append_of_pos]
    intro t ht
    exact decide_eq_true (hpassed t ht)

namespace Loop

/-- A loop is left in a state after so many passes that go on. -/
inductive Comes (l : Loop p σ α) : σ → State p → Nat → α × State p → Prop
  | leave {x : σ} {s s' : State p} {a : α} : l.pass x s = .leave a s' → Comes l x s 0 (a, s')
  | goOn {x x' : σ} {s s' : State p} {n : Nat} {out : α × State p} :
      l.pass x s = .goOn x' s' → Comes l x' s' n out → Comes l x s (n + 1) out

theorem Comes.eq_run {l : Loop p σ α} {x : σ} {s : State p} {n : Nat} {out : α × State p}
    (h : l.Comes x s n out) : out = l.run x s := by
  induction h with
  | leave hpass => exact (l.run_of_leave hpass).symm
  | goOn hpass _ ih => rw [ih, l.run_of_goOn hpass]

/-- A loop that is left whatever the tokens are. -/
structure Terminates (l : Loop p σ α) : Prop where
  /-- A pass that goes on takes at least one token, and no end of the source. -/
  consumes {x x' : σ} {s s' : State p} (h : l.pass x s = .goOn x' s') :
    ∃ taken, taken ≠ [] ∧ s.ahead = taken ++ s'.ahead
  /-- No more passes go on than there are tokens in front. -/
  ends (x : σ) (s : State p) : ∃ n ≤ s.ahead.length, l.Comes x s n (l.run x s)
  unique {x : σ} {s : State p} {n : Nat} {out : α × State p} (h : l.Comes x s n out) : out = l.run x s

theorem terminates (l : Loop p σ α) : l.Terminates where
  consumes h := State.exists_taken (l.lt_of_goOn h)
  ends x s := by
    fun_induction run l x s with
    | case1 x s a s' h => exact ⟨0, Nat.zero_le _, .leave h⟩
    | case2 x s x' s' h _ ih =>
      obtain ⟨taken, htaken, hahead⟩ := State.exists_taken (l.lt_of_goOn h)
      obtain ⟨n, hn, hcomes⟩ := ih
      have hlength := List.length_pos_of_ne_nil htaken
      rw [hahead, List.length_append]
      exact ⟨n + 1, by omega, .goOn h hcomes⟩
  unique := Comes.eq_run

end Loop

/-- Where no more blocks of examples follow, the parser stands where it stood before the tags that it looked
over. -/
theorem exampleLoop_leave {found found' : List Examples} {s s' : State p}
    (h : exampleLoop.pass found s = .leave found' s') : found' = found ∧ s' = s := by
  have hback : s.tags.2.backTo s = s := by
    have herrors : s.tags.2.errors = s.errors := s.reads_tags.errors.trans (List.append_nil _)
    unfold State.backTo
    rw [herrors]
  dsimp only [exampleLoop] at h
  split at h
  case h_1 => cases h
  case h_2 =>
    split at h
    · obtain ⟨rfl, rfl⟩ := Pass.leave.inj h
      exact ⟨rfl, hback⟩
    · cases h
  case h_3 =>
    obtain ⟨rfl, rfl⟩ := Pass.leave.inj h
    exact ⟨rfl, hback⟩

/-! ## What a parser reads -/

/-- A header is missed only at the end of the source. -/
theorem kind_headerLoop (reported : Bool) (s : State p) :
    (headerLoop.run reported s).1 = none → (headerLoop.run reported s).2.kind = .eof := by
  apply Loop.run_spec (R := fun _ _ out => out.1 = none → out.2.kind = .eof)
  · intro reported s _ s' hpass hnone
    dsimp only [headerLoop] at hpass
    split at hpass
    case h_1 =>
      obtain ⟨rfl, rfl⟩ := Pass.leave.inj hpass
      cases hnone
    case h_2 hkind =>
      obtain ⟨rfl, rfl⟩ := Pass.leave.inj hpass
      split <;> exact hkind
    case h_3 => cases hpass
  · exact fun _ _ _ _ _ _ hout => hout

/-- A parser goes on to the end of the source. -/
theorem kind_bodyLoop (f : Feature) (s : State p) : (bodyLoop.run f s).2.kind = .eof :=
  State.ahead_eq_nil_iff.1 (State.body_bodyLoop f s).2.ahead

/-- What the loops come to, over the tokens up to the header of the feature and over those of its body. -/
inductive Comes (p : Parser) : Except (List ParseError) Parsed → Prop
  | headless {n : Nat} {s : State p} :
      headerLoop.Comes false p.start n (none, s) → s.kind = .eof → Comes p (.error s.errors)
  | headed {n m : Nat} {tags : List String} {t : Token} {f : Feature} {s s' : State p} :
      headerLoop.Comes false p.start n (some (tags, t), s) →
      bodyLoop.Comes
        { name := (s.title t).1
          description := (s.title t).2.description.1
          tags
          background := none
          children := []
          location := t.location } (s.title t).2.description.2 m (f, s') →
      s'.kind = .eof → Comes p (.ok ⟨f, s'.errors⟩)

theorem comes_parse (p : Parser) : p.Comes p.parse := by
  obtain ⟨n, -, hheader⟩ := (headerLoop (p := p)).terminates.ends false p.start
  have hend := kind_headerLoop false p.start
  unfold parse
  dsimp only
  generalize headerLoop.run false p.start = out at hheader hend
  obtain ⟨found, s⟩ := out
  cases found with
  | none => exact .headless hheader (hend rfl)
  | some found =>
    obtain ⟨tags, t⟩ := found
    obtain ⟨m, -, hbody⟩ := (bodyLoop (p := p)).terminates.ends
      { name := (s.title t).1, description := (s.title t).2.description.1, tags, background := none,
        children := [], location := t.location } (s.title t).2.description.2
    exact .headed hheader hbody (kind_bodyLoop _ _)

end Parser

/-! ## The end of the source -/

namespace Reader

variable {ts : List Token}

theorem live_append_eof {t : Token} (ht : t.kind = .eof) (after : List Token) :
    live (ts ++ t :: after) = live ts := by
  unfold live
  rw [List.takeWhile_append, List.takeWhile_cons_of_neg (by simp [ht])]
  split
  · rename_i h
    rw [List.append_nil]
    exact ((List.takeWhile_prefix _).eq_of_length h).symm
  · rfl

theorem find?_append_eof {t : Token} (ht : t.kind = .eof) (after : List Token) :
    (ts ++ t :: after).find? (fun t => t.kind = .eof) = some ((ts.find? fun t => t.kind = .eof).getD t) := by
  rw [List.find?_append, List.find?_cons_of_pos (by simp [ht])]
  cases ts.find? fun t => decide (t.kind = .eof) <;> rfl

end Reader

namespace Parsed

theorem ofTokens_append_eof (source : String) (ts : List Token) {t : Token} (ht : t.kind = .eof)
    (after after' : List Token) :
    ofTokens source (ts ++ t :: after) = ofTokens source (ts ++ t :: after') := by
  rw [ofTokens_eq, ofTokens_eq]
  unfold ofLive Reader.finish
  rw [Reader.live_append_eof ht, Reader.live_append_eof ht, Reader.find?_append_eof ht,
    Reader.find?_append_eof ht]

/-- A missing end of the source is where the last token is. -/
theorem ofTokens_concat_eof (source : String) {ts : List Token} {last t : Token}
    (hts : ∀ t ∈ ts ++ [last], t.kind ≠ .eof) (ht : t.kind = .eof) (hlocation : t.location = last.location) :
    ofTokens source (ts ++ [last]) = ofTokens source (ts ++ [last] ++ [t]) := by
  have hnone : (ts ++ [last]).find? (fun t => t.kind = .eof) = none := by
    rw [List.find?_eq_none]
    simpa using hts
  rw [ofTokens_eq, ofTokens_eq]
  unfold ofLive Reader.finish
  rw [Reader.live_append_eof ht, Reader.find?_append_eof ht, hnone, List.getLast?_concat]
  dsimp only [Option.getD_none, Option.map_some]
  rw [hlocation]

/-- Reading tokens ends, whatever they are: a pass that does not leave its loop takes a token, and a feature is
what the loops come to.  The tags that the loop over blocks of examples gives back are given back where it is left.
Nothing behind the first end of the source is read, and where there is none it is as if one stood behind the last
token. -/
theorem ofTokens_stops (source : String) :
    (∀ p : Parser, (Parser.headerLoop (p := p)).Terminates ∧ (Parser.bodyLoop (p := p)).Terminates ∧
      (Parser.stepLoop (p := p)).Terminates ∧ (Parser.exampleLoop (p := p)).Terminates ∧
      (∀ passes, (Parser.skipLoop (p := p) passes).Terminates) ∧ (Parser.tagLoop (p := p)).Terminates ∧
      (Parser.descriptionLoop (p := p)).Terminates ∧ (Parser.rowLoop (p := p)).Terminates) ∧
    (∀ (p : Parser) (found found' : List Examples) (s s' : Parser.State p),
      Parser.exampleLoop.pass found s = .leave found' s' → found' = found ∧ s' = s) ∧
    (∀ p : Parser, p.Comes p.parse) ∧
    (∀ ts t after after', t.kind = .eof →
      ofTokens source (ts ++ t :: after) = ofTokens source (ts ++ t :: after')) ∧
    (∀ ts last t, (∀ t ∈ ts ++ [last], t.kind ≠ .eof) → t.kind = .eof → t.location = last.location →
      ofTokens source (ts ++ [last]) = ofTokens source (ts ++ [last] ++ [t])) := by
  refine ⟨fun p => ⟨Parser.headerLoop.terminates, Parser.bodyLoop.terminates, Parser.stepLoop.terminates,
      Parser.exampleLoop.terminates, fun passes => (Parser.skipLoop passes).terminates,
      Parser.tagLoop.terminates, Parser.descriptionLoop.terminates, Parser.rowLoop.terminates⟩,
    fun p found found' s s' hpass => Parser.exampleLoop_leave hpass, Parser.comes_parse,
    fun ts t after after' ht => ofTokens_append_eof source ts ht after after',
    fun ts last t hts ht hlocation => ofTokens_concat_eof source hts ht hlocation⟩

theorem ofTokens_stops_behind_header :
    ofTokens "Feature: a" ([⟨.block .feature, "Feature:", ⟨1, 1, 0⟩, 8, none⟩] ++
      ⟨.eof, "", ⟨1, 9, 8⟩, 8, none⟩ :: [⟨.tag, "@late", ⟨7, 1, 90⟩, 95, none⟩]) =
        .ok ⟨{ name := "a", description := none, tags := [], background := none, children := [],
               location := ⟨1, 1, 0⟩ }, []⟩ ∧
    ofTokens "Feature: a" ([] ++ [⟨.block .feature, "Feature:", ⟨1, 1, 0⟩, 8, none⟩]) =
      ofTokens "Feature: a" ([] ++ [⟨.block .feature, "Feature:", ⟨1, 1, 0⟩, 8, none⟩] ++
        [⟨.eof, "", ⟨1, 1, 0⟩, 8, none⟩]) := by
  obtain ⟨-, -, -, hafter, hmissing⟩ := ofTokens_stops "Feature: a"
  refine ⟨?_, hmissing [] _ _ (by simp) rfl rfl⟩
  rw [hafter _ _ _ [] rfl, ofTokens_eq]
  cbv

end Parsed

end Gherkin
