import Gherkin.Proofs.Printing.Printable
import Gherkin.Proofs.Tag.Reading

/-!
# Expressions and the trees they are written from

A tree is rendered with the parentheses that the precedences of its operators require, or with more.
Whatever the rendering, it is derived with the value of the tree, and so it is read with that value.
-/

namespace Gherkin.Tag

def Tree.tags : Tree → List String
  | .tag name => [name]
  | .not t => t.tags
  | .and l r | .or l r => l.tags ++ r.tags

/-- Symbols that render a tree as an expression of a level.  Only the precedences call for parentheses,
so that operands of one operator may be grouped in another way when they are read. -/
inductive Renders : Level → Tree → List Symbol → Prop
  | tag (name : String) : Renders .not (.tag name) [.tag name]
  | not {t : Tree} {ss : List Symbol} : Renders .not t ss → Renders .not (.not t) (.operator .not :: ss)
  | and {l r : Tree} {ls rs : List Symbol} : Renders .and l ls → Renders .and r rs →
      Renders .and (.and l r) (ls ++ .operator .and :: rs)
  | or {l r : Tree} {ls rs : List Symbol} : Renders .or l ls → Renders .or r rs →
      Renders .or (.or l r) (ls ++ .operator .or :: rs)
  | operand {t : Tree} {ss : List Symbol} : Renders .not t ss → Renders .and t ss
  | conjuncts {t : Tree} {ss : List Symbol} : Renders .and t ss → Renders .or t ss
  | parentheses {t : Tree} {ss : List Symbol} : Renders .or t ss →
      Renders .not t (.opening :: (ss ++ [.closing]))

/-! ## Renderings exist -/

theorem exists_renders (t : Tree) : ∃ ss, Renders .not t ss ∧ ∀ s, .tag s ∈ ss → s ∈ t.tags := by
  induction t with
  | tag name => exact ⟨[.tag name], .tag name, by simp [Tree.tags]⟩
  | not t ih =>
    obtain ⟨ss, hss, htags⟩ := ih
    exact ⟨_, .not hss, by simpa [Tree.tags] using htags⟩
  | and l r ihl ihr =>
    obtain ⟨ls, hls, hltags⟩ := ihl
    obtain ⟨rs, hrs, hrtags⟩ := ihr
    refine ⟨_, .parentheses (.conjuncts (.and (.operand hls) (.operand hrs))), ?_⟩
    intro s hs
    have hmem : .tag s ∈ ls ∨ .tag s ∈ rs := by simpa using hs
    exact List.mem_append.2 (hmem.imp (hltags s) (hrtags s))
  | or l r ihl ihr =>
    obtain ⟨ls, hls, hltags⟩ := ihl
    obtain ⟨rs, hrs, hrtags⟩ := ihr
    refine ⟨_, .parentheses (.or (.conjuncts (.operand hls)) (.conjuncts (.operand hrs))), ?_⟩
    intro s hs
    have hmem : .tag s ∈ ls ∨ .tag s ∈ rs := by simpa using hs
    exact List.mem_append.2 (hmem.imp (hltags s) (hrtags s))

/-- Symbols can be written, each with a blank before it. -/
theorem exists_written {ss : List Symbol} (h : ∀ s, .tag s ∈ ss → IsTag s) :
    ∃ cs, Written (' ' :: cs) ss := by
  induction ss with
  | nil => exact ⟨[], .blank (by decide) .nil⟩
  | cons s ss ih =>
    obtain ⟨cs, hcs⟩ := ih fun s' hs' => h s' (List.mem_cons_of_mem s hs')
    cases s with
    | tag s =>
      obtain ⟨name, hs, hne, hname⟩ := h s List.mem_cons_self
      have hwritten := Written.tag hne hname (by simp; decide) hcs
      rw [← hs, String.ofList_toList] at hwritten
      exact ⟨_, .blank (by decide) hwritten⟩
    | operator op =>
      have hword : op.name.toList.map Char.toLower = op.name.toList := by cases op <;> rfl
      have halpha : ∀ c ∈ op.name.toList, c.isAlpha :=
        List.all_eq_true.1 (by cases op <;> rfl)
      exact ⟨_, .blank (by decide) (.operator hword halpha (by simp) hcs)⟩
    | opening => exact ⟨_, .blank (by decide) (.opening hcs)⟩
    | closing => exact ⟨_, .blank (by decide) (.closing hcs)⟩

/-! ## Renderings are derived -/

theorem Derives.and_conjuncts {ls rs : List Symbol} {v w : List String → Bool}
    (hl : Derives .and ls v) (hr : Derives .and rs w) :
    ∃ u, Derives .and (ls ++ .operator .and :: rs) u ∧ ∀ tags, u tags = (v tags && w tags) := by
  generalize hlevel : Level.and = level at hr
  induction hr with
  | tag _ | parentheses _ | not _ | conjuncts _ | or _ _ => cases hlevel
  | operand hr => exact ⟨_, hl.and hr, fun _ => rfl⟩
  | @and ls' rs' v' w' _ hr ih =>
    obtain ⟨u, hu, heval⟩ := ih rfl
    refine ⟨fun tags => u tags && w' tags, ?_, fun tags => ?_⟩
    · simpa using hu.and hr
    · show (u tags && w' tags) = _
      rw [heval, Bool.and_assoc]

theorem Derives.or_alternatives {ls rs : List Symbol} {v w : List String → Bool}
    (hl : Derives .or ls v) (hr : Derives .or rs w) :
    ∃ u, Derives .or (ls ++ .operator .or :: rs) u ∧ ∀ tags, u tags = (v tags || w tags) := by
  generalize hlevel : Level.or = level at hr
  induction hr with
  | tag _ | parentheses _ | not _ | operand _ | and _ _ => cases hlevel
  | conjuncts hr => exact ⟨_, hl.or hr, fun _ => rfl⟩
  | @or ls' rs' v' w' _ hr ih =>
    obtain ⟨u, hu, heval⟩ := ih rfl
    refine ⟨fun tags => u tags || w' tags, ?_, fun tags => ?_⟩
    · simpa using hu.or hr
    · show (u tags || w' tags) = _
      rw [heval, Bool.or_assoc]

theorem exists_derives_of_renders {l : Level} {t : Tree} {ss : List Symbol} (h : Renders l t ss) :
    ∃ v, Derives l ss v ∧ ∀ tags, v tags = t.eval tags := by
  induction h with
  | tag name => exact ⟨_, .tag name, fun tags => (List.contains_eq_mem name tags).symm⟩
  | not _ ih =>
    obtain ⟨v, hv, heval⟩ := ih
    exact ⟨_, .not hv, fun tags => by rw [heval, Tree.eval]⟩
  | and _ _ ihl ihr =>
    obtain ⟨v, hv, hleft⟩ := ihl
    obtain ⟨w, hw, hright⟩ := ihr
    obtain ⟨u, hu, heval⟩ := hv.and_conjuncts hw
    exact ⟨u, hu, fun tags => by rw [heval, hleft, hright, Tree.eval]⟩
  | or _ _ ihl ihr =>
    obtain ⟨v, hv, hleft⟩ := ihl
    obtain ⟨w, hw, hright⟩ := ihr
    obtain ⟨u, hu, heval⟩ := hv.or_alternatives hw
    exact ⟨u, hu, fun tags => by rw [heval, hleft, hright, Tree.eval]⟩
  | operand _ ih =>
    obtain ⟨v, hv, heval⟩ := ih
    exact ⟨v, hv.operand, heval⟩
  | conjuncts _ ih =>
    obtain ⟨v, hv, heval⟩ := ih
    exact ⟨v, hv.conjuncts, heval⟩
  | parentheses _ ih =>
    obtain ⟨v, hv, heval⟩ := ih
    exact ⟨v, hv.parentheses, heval⟩

/-! ## Expressions -/

namespace Expression

theorem parse_eq_ok {input : String} {e : Expression} (h : parse input = .ok e) :
    Tree.parse input = .ok e.tree ∧ e.source = Text.trimmed input := by
  unfold parse at h
  cases htree : Tree.parse input with
  | error fault => simp [htree, Except.map] at h
  | ok t =>
    rw [htree] at h
    obtain rfl := Except.ok.inj h
    exact ⟨rfl, rfl⟩

theorem exists_parse_eq_ok {input : String} {ss : List Symbol} {v : List String → Bool}
    (hwritten : Written input.toList ss) (h : Derives .or ss v) :
    ∃ e, parse input = .ok e ∧ ∀ tags, e.accepts tags = v tags := by
  obtain ⟨t, ht, heval⟩ := Tree.exists_parse_eq_ok hwritten h
  exact ⟨⟨Text.trimmed input, t⟩, by rw [parse, ht]; rfl, heval⟩

theorem accepts_eq {input : String} {e : Expression} (he : parse input = .ok e) {ss : List Symbol}
    {v : List String → Bool} (hwritten : Written input.toList ss) (h : Derives .or ss v)
    (tags : List String) : e.accepts tags = v tags := by
  obtain ⟨e', he', haccepts⟩ := exists_parse_eq_ok hwritten h
  obtain rfl := Except.ok.inj (he.symm.trans he')
  exact haccepts tags

/-- Blanks around an expression do not matter, so that expressions written the same are the same. -/
theorem accepts_eq_of_beq {input input' : String} {e e' : Expression} (he : parse input = .ok e)
    (he' : parse input' = .ok e') (heq : (e == e') = true) (tags : List String) :
    e.accepts tags = e'.accepts tags := by
  obtain ⟨htree, hsource⟩ := parse_eq_ok he
  obtain ⟨htree', hsource'⟩ := parse_eq_ok he'
  obtain ⟨ss, hss, hderives⟩ := Tree.parse_eq_ok htree
  obtain ⟨ss', hss', hderives'⟩ := Tree.parse_eq_ok htree'
  have htrim : Text.trim input.toList = Text.trim input'.toList := by
    have hsame : e.source = e'.source := eq_of_beq heq
    rw [hsource, hsource', Text.trimmed, Text.trimmed] at hsame
    exact String.ofList_inj.1 hsame
  have hsymbols : ss = ss' := by
    have hwritten := hss.trim
    rw [htrim] at hwritten
    exact hwritten.unique hss'.trim
  rw [hsymbols] at hderives
  exact accepts_eq he' hss' hderives tags |>.symm

/-- An expression is read exactly when the text is written with symbols that the grammar derives, and
then it has the value of the derivation.  Every tree of tags can be rendered, and each rendering is read
with the value of the tree.  Expressions that are written the same have the same value. -/
theorem parse_iff_derives :
    (∀ input, (∃ e, parse input = .ok e) ↔
      ∃ ss v, Written input.toList ss ∧ Derives .or ss v) ∧
    (∀ input e ss v, parse input = .ok e → Written input.toList ss → Derives .or ss v →
      ∀ tags, e.accepts tags = v tags) ∧
    (∀ t : Tree, (∀ s ∈ t.tags, IsTag s) →
      ∃ ss text, Renders .or t ss ∧ Written (String.toList text) ss) ∧
    (∀ t ss text, Renders .or t ss → Written (String.toList text) ss →
      ∃ e, parse text = .ok e ∧ ∀ tags, e.accepts tags = t.eval tags) ∧
    ∀ input input' e e', parse input = .ok e → parse input' = .ok e' → (e == e') = true →
      ∀ tags, e.accepts tags = e'.accepts tags := by
  refine ⟨fun input => ⟨?_, ?_⟩, ?_, ?_, ?_, ?_⟩
  · rintro ⟨e, he⟩
    obtain ⟨ss, hwritten, hderives⟩ := Tree.parse_eq_ok (parse_eq_ok he).1
    exact ⟨ss, _, hwritten, hderives⟩
  · rintro ⟨ss, v, hwritten, hderives⟩
    obtain ⟨e, he, -⟩ := exists_parse_eq_ok hwritten hderives
    exact ⟨e, he⟩
  · intro input e ss v he hwritten hderives tags
    exact accepts_eq he hwritten hderives tags
  · intro t htags
    obtain ⟨ss, hss, hmem⟩ := exists_renders t
    obtain ⟨cs, hcs⟩ := exists_written fun s hs => htags s (hmem s hs)
    exact ⟨ss, String.ofList (' ' :: cs), .conjuncts (.operand hss), by rwa [String.toList_ofList]⟩
  · intro t ss text hrenders hwritten
    obtain ⟨v, hderives, hvalue⟩ := exists_derives_of_renders hrenders
    obtain ⟨e, he, haccepts⟩ := exists_parse_eq_ok hwritten hderives
    exact ⟨e, he, fun tags => by rw [haccepts, hvalue]⟩
  · intro input input' e e' he he' heq tags
    exact accepts_eq_of_beq he he' heq tags

theorem parse_iff_derives_of_mixed_case :
    Renders .or (.and (.tag "@a") (.not (.or (.tag "@b") (.tag "@c"))))
      [.tag "@a", .operator .and, .operator .not, .opening, .tag "@b", .operator .or, .tag "@c", .closing] ∧
    ∃ e, parse " @a AND not(@b Or @c)" = .ok e ∧
      ∀ tags, e.accepts tags = (tags.contains "@a" && !(tags.contains "@b" || tags.contains "@c")) := by
  have hinside : Renders .or (.or (.tag "@b") (.tag "@c")) [.tag "@b", .operator .or, .tag "@c"] :=
    .or (.conjuncts (.operand (.tag "@b"))) (.conjuncts (.operand (.tag "@c")))
  have hrenders := Renders.conjuncts
    (.and (.operand (.tag "@a")) (.operand (.not (.parentheses hinside))))
  -- What comes after a word is looked at by a test, so that `rfl` evaluates it.
  have htag : ∀ (c : Char) (rest : List Char) (ss : List Symbol), c.isAlpha →
      rest.head?.all (fun d => !Lexeme.isTagCharacter d) → Written rest ss →
      Written ('@' :: c :: rest) (.tag (String.ofList ['@', c]) :: ss) := by
    intro c rest ss hc hrest hwritten
    have hname : ∀ d ∈ [c], Lexeme.isTagCharacter d := by
      intro d hd
      obtain rfl := List.mem_singleton.1 hd
      exact isTagCharacter_of_isAlpha hc
    have hstop : ∀ d ∈ rest.head?, ¬ Lexeme.isTagCharacter d := fun d hd => by
      simpa using (Option.all_eq_true _ _).1 hrest d hd
    exact .tag (by simp) hname hstop hwritten
  have hlast : Written "@c)".toList [.tag "@c", .closing] :=
    htag 'c' [')'] _ rfl rfl (.closing .nil)
  -- An operator is written in its letters, of either case.
  have hoperator : ∀ (op : Operator) (word : List Char) {rest : List Char} {ss : List Symbol},
      word.map Char.toLower = op.name.toList → word.all Char.isAlpha →
      rest.head?.all (fun c => !c.isAlpha) → Written rest ss →
      Written (word ++ rest) (.operator op :: ss) := by
    intro op word rest ss hword halpha hrest hwritten
    have hstop : ∀ c ∈ rest.head?, ¬ c.isAlpha := fun c hc => by
      simpa using (Option.all_eq_true _ _).1 hrest c hc
    exact .operator hword (List.all_eq_true.1 halpha) hstop hwritten
  have hor : Written "(@b Or @c)".toList [.opening, .tag "@b", .operator .or, .tag "@c", .closing] :=
    .opening (htag 'b' _ _ rfl rfl (.blank (by decide)
      (hoperator .or ['O', 'r'] rfl rfl rfl (.blank (by decide) hlast))))
  have hwritten : Written " @a AND not(@b Or @c)".toList [.tag "@a", .operator .and, .operator .not,
      .opening, .tag "@b", .operator .or, .tag "@c", .closing] :=
    .blank (by decide) (htag 'a' _ _ rfl rfl (.blank (by decide)
      (hoperator .and ['A', 'N', 'D'] rfl rfl rfl (.blank (by decide)
        (hoperator .not ['n', 'o', 't'] rfl rfl rfl hor)))))
  exact ⟨hrenders, parse_iff_derives.2.2.2.1 _ _ _ hrenders hwritten⟩

end Expression

end Gherkin.Tag
