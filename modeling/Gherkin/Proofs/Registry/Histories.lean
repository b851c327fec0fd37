import Gherkin.Proofs.Registry.Marks
import Gherkin.Proofs.Registry.Resolution

/-!
# Histories of a registry

What any sequence of calls makes of an empty registry.  Its definitions are the registrations that have
succeeded, its index has the position of each pattern, and a definition is marked as used exactly where it has
won a look-up.  Each call adds a definition, marks one or changes nothing, so these facts hold from call to
call.
-/

namespace Gherkin

variable {World : Type} {refusal? : Refusal}

def Definition.registration (d : Definition World) : Registration World :=
  ⟨d.keyword, d.pattern.source, d.handler, d.caller⟩

/-! ## Requests -/

inductive Request (World : Type) where
  | register (x : Registration World)
  | find (text : String)
  | accepts (text : String)
  /-- The memory is the caller's, and need not be the one that the last call has left.  A text by itself has
  neither a table nor a doc string. -/
  | execute (memory : Memory) (text : String) (table : Option Table) (docString : Option DocString)

inductive Response (World : Type) where
  | registered (result : Except RegistrationError Unit)
  | found (result : Except ConversionError (Option (Match World)))
  | accepted (answer : Bool)
  | executed (result : Except ExecutionError Unit)

def Request.text? : Request World → Option String
  | .find text | .execute _ text _ _ => some text
  | .register _ | .accepts _ => none

def Request.registration? : Request World → Response World → Option (Registration World)
  | .register x, .registered (.ok ()) => some x
  | _, _ => none

namespace Session

def start (scene : Scene World) : Session World := { registry := {}, scene }

def respond (s : Session World) (refusal? : Refusal) : Request World → Response World × Session World
  | .register x =>
    match s.register refusal? x with
    | .ok s' => (.registered (.ok ()), s')
    | .error e => (.registered (.error e), s)
  | .find text =>
    let (result, s) := s.find text
    (.found result, s)
  | .accepts text => (.accepted (s.registry.accepts text), s)
  | .execute memory text table docString =>
    let (result, s) := { s with scene := { s.scene with memory } }.execute text table docString
    (.executed result, s)

def after (s : Session World) (refusal? : Refusal) (requests : List (Request World)) : Session World :=
  requests.foldl (fun s request => (s.respond refusal? request).2) s

/-- The registrations that succeed, in order. -/
def registrations (s : Session World) (refusal? : Refusal) : List (Request World) → List (Registration World)
  | [] => []
  | request :: requests =>
    (request.registration? (s.respond refusal? request).1).toList ++
      (s.respond refusal? request).2.registrations refusal? requests

/-- The definition at `index` wins the text of one of the requests. -/
def Won (s : Session World) (refusal? : Refusal) (requests : List (Request World)) (index : Nat) : Prop :=
  ∃ before request later text d, requests = before ++ request :: later ∧ request.text? = some text ∧
    Registry.Wins text (s.after refusal? before).registry.definitions index d

section
variable {s : Session World} {requests more : List (Request World)} {request : Request World}

theorem after_concat : s.after refusal? (requests ++ [request]) =
    ((s.after refusal? requests).respond refusal? request).2 := by
  unfold after
  rw [List.foldl_append]
  rfl

theorem registrations_append : s.registrations refusal? (requests ++ more) =
    s.registrations refusal? requests ++ (s.after refusal? requests).registrations refusal? more := by
  induction requests generalizing s with
  | nil => rfl
  | cons request requests ih =>
    rw [List.cons_append, registrations, registrations, ih, List.append_assoc]
    rfl

theorem registrations_concat : s.registrations refusal? (requests ++ [request]) =
    s.registrations refusal? requests ++
      (request.registration? ((s.after refusal? requests).respond refusal? request).1).toList := by
  rw [registrations_append, registrations, registrations, List.append_nil]

/-- What has won is what had won before the last request, or wins the text of the last one. -/
theorem won_concat {index : Nat} : s.Won refusal? (requests ++ [request]) index ↔
    s.Won refusal? requests index ∨ ∃ text d, request.text? = some text ∧
      Registry.Wins text (s.after refusal? requests).registry.definitions index d := by
  constructor
  · rintro ⟨before, q, later, text, d, hrequests, htext, hwins⟩
    -- The winning request is the last one, or the requests behind it end with the last one.
    rcases List.eq_nil_or_concat' later with rfl | ⟨later, last, rfl⟩
    · obtain ⟨rfl, hq⟩ := List.append_inj' hrequests rfl
      obtain rfl := List.singleton_inj.1 hq
      exact .inr ⟨text, d, htext, hwins⟩
    · rw [← List.cons_append, ← List.append_assoc] at hrequests
      obtain ⟨rfl, -⟩ := List.append_inj' hrequests rfl
      exact .inl ⟨before, q, later, text, d, rfl, htext, hwins⟩
  · rintro (⟨before, q, later, text, d, rfl, htext, hwins⟩ | ⟨text, d, htext, hwins⟩)
    · exact ⟨before, q, later ++ [request], text, d, by simp, htext, hwins⟩
    · exact ⟨requests, request, [], text, d, rfl, htext, hwins⟩

theorem not_won_nil {index : Nat} : ¬ s.Won refusal? [] index := by
  rintro ⟨before, request, later, text, d, h, -⟩
  simp at h

end

end Session

/-! ## What a request does -/

/-- What a request may do to a registry, with the registrations it makes. -/
inductive Request.Does (refusal? : Refusal) (request : Request World) (r : Registry World) :
    List (Registration World) → Registry World → Prop
  | registers {x : Registration World} {p : Pattern} (hrequest : request = .register x)
      (hnew : r.index.lookup x.source = none) (hparse : Pattern.parse refusal? x.source = .ok p) :
      Does refusal? request r [x] (r.push (x.definition p))
  | marks {text : String} {i : Nat} {d : Definition World} (htext : request.text? = some text)
      (hwins : Registry.Wins text r.definitions i d) : Does refusal? request r [] (r.markUsed i)
  | nothing (h : ∀ text, request.text? = some text → ∀ d ∈ r.definitions, ¬ d.pattern.accepts text) :
      Does refusal? request r [] r

theorem Request.does_find {request : Request World} {text : String} (htext : request.text? = some text)
    (r : Registry World) : request.Does refusal? r [] (r.find text).2 := by
  by_cases hmatch : ∃ d ∈ r.definitions, d.pattern.accepts text
  · obtain ⟨i, d, hwins⟩ := Registry.exists_wins hmatch
    obtain ⟨captures, -, hfind⟩ := Registry.find_of_wins hwins
    rw [hfind]
    exact .marks htext hwins
  · have hnone : ∀ d ∈ r.definitions, ¬ d.pattern.accepts text :=
      fun d hd haccepts => hmatch ⟨d, hd, haccepts⟩
    rw [(Registry.find_of_not_accepts hnone).2]
    apply Request.Does.nothing
    intro text' htext'
    rw [Option.some.inj (htext'.symm.trans htext)]
    exact hnone

namespace Session

/-- The registry after an execution is the one after the look-up. -/
theorem registry_execute (s : Session World) (text : String) (table : Option Table)
    (docString : Option DocString) :
    (s.execute text table docString).2.registry = (s.registry.find text).2 := by
  show _ = (s.find text).2.registry
  unfold execute
  rcases s.find text with ⟨_ | _ | m, s'⟩ <;> rfl

/-- An execution that finds no definition, or whose values do not convert, calls nothing. -/
theorem execute_of_not_called {s : Session World} {text : String} {table : Option Table}
    {docString : Option DocString} {e : ExecutionError}
    (h : (s.execute text table docString).1 = .error e)
    (he : (∃ text, e = .undefined text) ∨ ∃ text cause, e = .conversion text cause) :
    (s.execute text table docString).2.scene = s.scene ∧
      (s.execute text table docString).2.calls = s.calls := by
  have hscene : (s.find text).2.scene = s.scene := rfl
  have hcalls : (s.find text).2.calls = s.calls := rfl
  unfold execute at h ⊢
  rcases hfind : s.find text with ⟨_ | _ | m, s'⟩
  · rw [hfind] at hscene hcalls
    exact ⟨hscene, hcalls⟩
  · rw [hfind] at hscene hcalls
    exact ⟨hscene, hcalls⟩
  · -- A handler that is called fails with an error of its own.
    rw [hfind] at h
    dsimp only at h
    revert h
    generalize ((s'.log _).call _ _) = called
    intro h
    cases hresult : called.1 with
    | ok u => simp [hresult, Except.mapError] at h
    | error cause =>
      simp only [hresult, Except.mapError, Except.error.injEq] at h
      subst h
      simp at he

theorem register_eq_ok {s s' : Session World} {x : Registration World}
    (h : s.register refusal? x = .ok s') : ∃ p, s.registry.index.lookup x.source = none ∧
      Pattern.parse refusal? x.source = .ok p ∧ s'.registry = s.registry.push (x.definition p) := by
  have hregistry : s.registry.register refusal? x = .ok s'.registry := by
    unfold register at h
    unfold Registry.register
    cases hdefine : s.registry.define refusal? x with
    | error e =>
      rw [hdefine] at h
      cases h
    | ok d =>
      rw [hdefine] at h
      rw [← Except.ok.inj h]
      rfl
  exact Registry.eq_push_of_register hregistry

theorem does_respond (s : Session World) (request : Request World) :
    request.Does refusal? s.registry (request.registration? (s.respond refusal? request).1).toList
      (s.respond refusal? request).2.registry := by
  cases request with
  | register x =>
    cases hregister : s.register refusal? x with
    | error e =>
      have hstays : s.respond refusal? (.register x) = (.registered (.error e), s) := by rw [respond, hregister]
      rw [hstays]
      exact .nothing fun text htext => by simp [Request.text?] at htext
    | ok s' =>
      obtain ⟨p, hnew, hparse, hregistry⟩ := register_eq_ok hregister
      have hresponds : s.respond refusal? (.register x) = (.registered (.ok ()), s') := by
        rw [respond, hregister]
      rw [hresponds, hregistry]
      exact .registers rfl hnew hparse
  | find text => exact Request.does_find rfl s.registry
  | accepts text => exact .nothing fun text htext => by simp [Request.text?] at htext
  | execute memory text table docString =>
    have htext : (Request.execute memory text table docString : Request World).text? = some text := rfl
    have hdoes : Request.Does refusal? _ s.registry [] (s.registry.find text).2 := Request.does_find htext _
    have hregistry := registry_execute { s with scene := { s.scene with memory } } text table docString
    rw [← show _ = (s.registry.find text).2 from hregistry] at hdoes
    exact hdoes

end Session

/-! ## What holds from request to request -/

/-- A registry is what the registrations and the positions that have won make of it. -/
structure Registry.Keeps (refusal? : Refusal) (r : Registry World) (registered : List (Registration World))
    (won : Nat → Prop) : Prop where
  built : r.Built refusal?
  registrations : r.definitions.map Definition.registration = registered
  distinct : r.patterns.Nodup
  used : ∀ i d, r.definitions[i]? = some d → (d.used ↔ won i)
  bound : ∀ i, won i → i < r.definitions.length

namespace Registry

section
variable {r : Registry World} {registered : List (Registration World)} {won : Nat → Prop}

theorem patterns_eq_map_registration :
    r.patterns = (r.definitions.map Definition.registration).map Registration.source := by
  rw [List.map_map]
  rfl

theorem Keeps.push (h : r.Keeps refusal? registered won) {x : Registration World} {p : Pattern}
    (hnew : r.index.lookup x.source = none) (hparse : Pattern.parse refusal? x.source = .ok p) :
    (r.push (x.definition p)).Keeps refusal? (registered ++ [x]) won := by
  have hsource : p.source = x.source := Pattern.source_of_parse hparse
  have hnotin := h.built.indexed.lookup_eq_none_iff.1 hnew
  refine ⟨h.built.register (register_eq_ok hnew hparse), ?_, ?_, ?_, ?_⟩
  · show (r.definitions ++ [_]).map Definition.registration = registered ++ [x]
    rw [List.map_append, h.registrations, List.map_singleton]
    show registered ++ [⟨x.keyword, p.source, x.handler, x.caller⟩] = registered ++ [x]
    rw [hsource]
  · rw [patterns_push, show (x.definition p).pattern.source = x.source from hsource]
    exact List.nodup_append'.2 ⟨h.distinct, List.nodup_singleton _, by simpa using hnotin⟩
  · intro i d hd
    rcases getElem?_concat_eq_some_iff.1 hd with hd | ⟨rfl, rfl⟩
    · exact h.used i d hd
    · -- What is not there yet has not won.
      exact iff_of_false Bool.false_ne_true fun hwon => absurd (h.bound _ hwon) (lt_irrefl _)
  · intro i hwon
    show i < (r.definitions ++ [_]).length
    rw [List.length_append]
    exact Nat.lt_add_right _ (h.bound i hwon)

theorem map_registration_markUsed (r : Registry World) (i : Nat) :
    (r.markUsed i).definitions.map Definition.registration = r.definitions.map Definition.registration := by
  have hsame := congrArg (fun r => r.definitions.map Definition.registration) (unmarked_markUsed r i)
  unfold unmarked at hsame
  dsimp only at hsame
  rw [List.map_map, List.map_map] at hsame
  exact hsame

theorem Keeps.markUsed (h : r.Keeps refusal? registered won) {text : String} {i : Nat} {d : Definition World}
    (hwins : Wins text r.definitions i d) :
    (r.markUsed i).Keeps refusal? registered (fun j => won j ∨ j = i) := by
  have hbuilt : (r.markUsed i).Built refusal? := by
    obtain ⟨captures, -, hfind⟩ := find_of_wins hwins
    have hfound := h.built.find text
    rwa [hfind] at hfound
  have hlength : (r.markUsed i).definitions.length = r.definitions.length := List.length_modify _ _ _
  refine ⟨hbuilt, ?_, ?_, ?_, ?_⟩
  · rw [map_registration_markUsed, h.registrations]
  · rw [patterns_markUsed]
    exact h.distinct
  · intro j e he
    unfold Registry.markUsed at he
    rw [List.getElem?_modify] at he
    obtain ⟨e', he', rfl⟩ := Option.map_eq_some_iff.1 he
    by_cases hij : i = j
    · rw [if_pos hij]
      exact iff_of_true rfl (.inr hij.symm)
    · rw [if_neg hij, h.used j e' he']
      exact (or_iff_left fun hji => hij hji.symm).symm
  · rintro j (hwon | rfl)
    · rw [hlength]
      exact h.bound j hwon
    · rw [hlength]
      exact (List.getElem?_eq_some_iff.1 hwins.found).1

theorem Keeps.congr {won' : Nat → Prop} (h : r.Keeps refusal? registered won)
    (hwon : ∀ i, won' i ↔ won i) : r.Keeps refusal? registered won' := by
  rwa [show won' = won from funext fun i => propext (hwon i)]

theorem keeps_empty : Registry.Keeps refusal? ({} : Registry World) [] (fun _ => False) where
  built := .empty
  registrations := rfl
  distinct := List.nodup_nil
  used := by simp
  bound := by simp

/-- The first registration of a pattern is the only one. -/
theorem find?_source_of_mem (hdistinct : (registered.map Registration.source).Nodup)
    {x : Registration World} (hx : x ∈ registered) :
    registered.find? (fun y => y.source = x.source) = some x := by
  cases hfind : registered.find? (fun y => y.source = x.source) with
  | none => exact absurd (decide_eq_true rfl) (List.find?_eq_none.1 hfind x hx)
  | some y =>
    have hsource : y.source = x.source := by simpa using List.find?_some hfind
    rw [List.inj_on_of_nodup_map hdistinct (List.mem_of_find?_eq_some hfind) hx hsource]

theorem Keeps.find?_eq_some (h : r.Keeps refusal? registered won) {x : Registration World} {i : Nat}
    (hlookup : r.index.lookup x.source = some i) :
    ∃ first, registered.find? (fun y => y.source = x.source) = some first ∧
      r.callerAt i = first.caller.text := by
  have hpattern : r.patterns[i]? = some x.source := (h.built.indexed _ _).1 hlookup
  unfold patterns at hpattern
  rw [List.getElem?_map] at hpattern
  obtain ⟨d, hd, hsource⟩ := Option.map_eq_some_iff.1 hpattern
  have hmem : d.registration ∈ registered := by
    rw [← h.registrations]
    exact List.mem_map_of_mem (List.mem_of_getElem? hd)
  have hdistinct := h.distinct
  rw [patterns_eq_map_registration, h.registrations] at hdistinct
  have hfirst := find?_source_of_mem hdistinct hmem
  rw [show d.registration.source = x.source from hsource] at hfirst
  refine ⟨d.registration, hfirst, ?_⟩
  unfold callerAt
  rw [hd]
  rfl

theorem Keeps.find?_eq_none (h : r.Keeps refusal? registered won) {x : Registration World}
    (hlookup : r.index.lookup x.source = none) :
    registered.find? (fun y => y.source = x.source) = none := by
  have hnotin := h.built.indexed.lookup_eq_none_iff.1 hlookup
  rw [patterns_eq_map_registration, h.registrations] at hnotin
  apply List.find?_eq_none.2
  intro y hy hsource
  exact hnotin (List.mem_map.2 ⟨y, hy, of_decide_eq_true hsource⟩)

end

end Registry

theorem Request.Does.keeps {request : Request World} {r r' : Registry World}
    {registered added : List (Registration World)} {won : Nat → Prop}
    (hdoes : request.Does refusal? r added r') (h : r.Keeps refusal? registered won) :
    r'.Keeps refusal? (registered ++ added) (fun i => won i ∨
      ∃ text d, request.text? = some text ∧ Registry.Wins text r.definitions i d) := by
  cases hdoes with
  | registers hrequest hnew hparse =>
    refine (h.push hnew hparse).congr fun i => or_iff_left ?_
    rintro ⟨text, d, htext, -⟩
    rw [hrequest] at htext
    cases htext
  | @marks text i d htext hwins =>
    rw [List.append_nil]
    refine (h.markUsed hwins).congr fun j => or_congr_right ⟨?_, ?_⟩
    · -- No other definition wins the text.
      rintro ⟨text', d', htext', hwins'⟩
      obtain rfl := Option.some.inj (htext.symm.trans htext')
      exact (hwins'.unique hwins).1
    · rintro rfl
      exact ⟨text, d, htext, hwins⟩
  | nothing hnone =>
    rw [List.append_nil]
    refine h.congr fun i => or_iff_left ?_
    rintro ⟨text, d, htext, hwins⟩
    exact hnone text htext d hwins.mem hwins.accepts

namespace Session

theorem keeps_after (scene : Scene World) (requests : List (Request World)) :
    ((start scene).after refusal? requests).registry.Keeps refusal?
      ((start scene).registrations refusal? requests) ((start scene).Won refusal? requests) := by
  -- The last request is the one whose step is known, so the induction takes it off the end.
  induction requests using List.reverseRecOn with
  | nil => exact Registry.keeps_empty.congr fun i => iff_of_false not_won_nil id
  | append_singleton requests request ih =>
    rw [after_concat, registrations_concat]
    exact ((does_respond _ request).keeps ih).congr fun i => won_concat

/-- A registration fails where its pattern is there already, does not compile or is refused. -/
theorem respond_register {s : Session World} {registered : List (Registration World)} {won : Nat → Prop}
    (h : s.registry.Keeps refusal? registered won) (x : Registration World) :
    (s.respond refusal? (.register x)).1 = .registered (
      match registered.find? (fun y => y.source = x.source) with
      | some first => .error (.duplicate x.source first.caller.text)
      | none =>
        match Pattern.compile x.source with
        | .error e => .error (.malformed x.source (.malformed e))
        | .ok compiled =>
          match refusal? compiled.regex with
          | some message => .error (.malformed x.source (.refused message))
          | none => .ok ()) := by
  unfold respond register Registry.define
  dsimp only
  -- The index and the history agree by `Keeps`, so the duplicate is the same one.
  cases hlookup : s.registry.index.lookup x.source with
  | some i =>
    obtain ⟨first, hfirst, hcaller⟩ := h.find?_eq_some hlookup
    rw [hfirst]
    dsimp only [Except.map]
    rw [hcaller]
  | none =>
    rw [h.find?_eq_none hlookup]
    cases hcompile : Pattern.compile x.source with
    | error e =>
      rw [Pattern.parse_of_malformed hcompile]
      rfl
    | ok compiled =>
      obtain ⟨parts, hread, -, rfl⟩ := Pattern.compile_eq_ok_iff.1 hcompile
      dsimp only
      cases hrefusal : refusal? (CompiledPattern.ofParts parts).regex with
      | some message =>
        rw [Pattern.parse_of_refused hcompile hrefusal]
        rfl
      | none =>
        rw [Pattern.parse_of_parts hread hcompile hrefusal]
        rfl

theorem respond_of_register_error {s : Session World} {x : Registration World} {e : RegistrationError}
    (h : (s.respond refusal? (.register x)).1 = .registered (.error e)) :
    (s.respond refusal? (.register x)).2 = s := by
  rw [respond] at h ⊢
  cases hregister : s.register refusal? x with
  | error e => rfl
  | ok s' => simp [hregister] at h

/-- What has won is the registration at the same place in the end. -/
theorem registration_of_wins (scene : Scene World) {before later : List (Request World)} {text : String}
    {i : Nat} {d d' : Definition World}
    (hwins : Registry.Wins text ((start scene).after refusal? before).registry.definitions i d')
    (hd : ((start scene).after refusal? (before ++ later)).registry.definitions[i]? = some d) :
    d'.registration = d.registration := by
  have hfound := congrArg (Option.map Definition.registration) hwins.found
  have hlast := congrArg (Option.map Definition.registration) hd
  rw [← List.getElem?_map, (keeps_after scene _).registrations] at hfound hlast
  -- The registrations up to then are the first of all.
  rw [registrations_append, List.getElem?_append_left (List.getElem?_eq_some_iff.1 hfound).1, hfound] at hlast
  exact Option.some.inj hlast

/-- After any requests to an empty registry its definitions are the registrations that have succeeded, no
two of the same pattern, and its index has the position of each pattern and nothing else.  The next
registration fails exactly where its pattern is one of these, which the error tells the place of, or does not
compile, or has a regular expression that is refused; and it leaves everything as it is if it fails.  A
definition is marked as used exactly where it has won a look-up, whether its values convert or not.  An
execution that finds no definition, or whose values do not convert, calls nothing. -/
theorem registry_after_requests (refusal? : Refusal) (scene : Scene World) (requests : List (Request World)) :
    let s := (start scene).after refusal? requests
    let registered := (start scene).registrations refusal? requests
    s.registry.definitions.map Definition.registration = registered ∧
    (registered.map Registration.source).Nodup ∧
    (∀ source i, s.registry.index.lookup source = some i ↔
      (registered.map Registration.source)[i]? = some source) ∧
    (∀ x : Registration World,
      (s.respond refusal? (.register x)).1 = .registered (
        match registered.find? (fun y => y.source = x.source) with
        | some first => .error (.duplicate x.source first.caller.text)
        | none =>
          match Pattern.compile x.source with
          | .error e => .error (.malformed x.source (.malformed e))
          | .ok compiled =>
            match refusal? compiled.regex with
            | some message => .error (.malformed x.source (.refused message))
            | none => .ok ()) ∧
      ∀ e, (s.respond refusal? (.register x)).1 = .registered (.error e) →
        (s.respond refusal? (.register x)).2 = s) ∧
    (∀ i d, s.registry.definitions[i]? = some d → (d.used ↔ ∃ before request later text d',
      requests = before ++ request :: later ∧ request.text? = some text ∧
      Registry.Wins text ((start scene).after refusal? before).registry.definitions i d' ∧
      d'.registration = d.registration)) ∧
    ∀ memory text table docString e,
      (s.respond refusal? (.execute memory text table docString)).1 = .executed (.error e) →
      ((∃ text, e = .undefined text) ∨ ∃ text cause, e = .conversion text cause) →
      (s.respond refusal? (.execute memory text table docString)).2.scene = ⟨memory, s.scene.world⟩ ∧
        (s.respond refusal? (.execute memory text table docString)).2.calls = s.calls := by
  intro s registered
  have hkeeps : s.registry.Keeps refusal? registered ((start scene).Won refusal? requests) :=
    keeps_after scene requests
  have hpatterns : s.registry.patterns = registered.map Registration.source := by
    rw [Registry.patterns_eq_map_registration, hkeeps.registrations]
  refine ⟨hkeeps.registrations, hpatterns ▸ hkeeps.distinct, hpatterns ▸ hkeeps.built.indexed, ?_, ?_, ?_⟩
  · exact fun x => ⟨respond_register hkeeps x, fun e => respond_of_register_error⟩
  · intro i d hd
    rw [hkeeps.used i d hd]
    constructor
    · rintro ⟨before, request, later, text, d', rfl, htext, hwins⟩
      exact ⟨before, request, later, text, d', rfl, htext, hwins, registration_of_wins scene hwins hd⟩
    · rintro ⟨before, request, later, text, d', hrequests, htext, hwins, -⟩
      exact ⟨before, request, later, text, d', hrequests, htext, hwins⟩
  · intro memory text table docString e herror he
    have hresult : ({ s with scene := { s.scene with memory } }.execute text table docString).1 = .error e :=
      Response.executed.inj herror
    exact execute_of_not_called hresult he

set_option maxRecDepth 4000 in
/-- A pattern twice, one that does not compile, one that is refused and a number that is too large. -/
theorem registry_after_requests_of_failures :
    ∃ (refusal? : Refusal) (handler : Handler Unit) (requests : List (Request Unit)),
      let s := (start ⟨.empty, ()⟩).after refusal? requests
      s.registry.definitions.map (fun d => (d.pattern.source, d.used)) =
          [("a \x7bint\x7d", true), ("b", false)] ∧
        requests.length = 7 ∧ s.registry.index.lookup "b" = some 1 ∧
        (s.respond refusal? (.register ⟨none, "b", handler, ⟨"steps", 9⟩⟩)).1 =
          .registered (.error (.duplicate "b" "steps:5")) ∧
        (s.respond refusal? (.register ⟨none, "b", handler, ⟨"steps", 9⟩⟩)).2 = s ∧
        (s.respond refusal? (.register ⟨none, "large", handler, ⟨"steps", 9⟩⟩)).1 =
          .registered (.error (.malformed "large" (.refused "too big"))) ∧
        (s.respond refusal? (.execute .empty "a 9223372036854775808" none none)).2.calls = [] := by
  let refusal? : Refusal := fun regex => if regex = "^large$" then some "too big" else none
  let handler : Handler Unit := fun _ s => (.ok (), s)
  let requests : List (Request Unit) := [.register ⟨some .given, "a \x7bint\x7d", handler, ⟨"steps", 1⟩⟩,
    .register ⟨none, "a \x7bint\x7d", handler, ⟨"steps", 2⟩⟩, .register ⟨none, "\x7b", handler, ⟨"steps", 3⟩⟩,
    .register ⟨none, "large", handler, ⟨"steps", 4⟩⟩, .register ⟨none, "b", handler, ⟨"steps", 5⟩⟩,
    .find "a 9223372036854775808", .execute .empty "c" none none]
  obtain ⟨-, -, hindex, hregister, -, hexecute⟩ := registry_after_requests refusal? ⟨.empty, ()⟩ requests
  have hdefinitions : ((start ⟨.empty, ()⟩).after refusal? requests).registry.definitions.map
      (fun d => (d.pattern.source, d.used)) = [("a \x7bint\x7d", true), ("b", false)] := by cbv
  have hregistered : ((start ⟨.empty, ()⟩).registrations refusal? requests).map Registration.source =
      ["a \x7bint\x7d", "b"] := by cbv
  obtain ⟨hduplicate, hstays⟩ := hregister ⟨none, "b", handler, ⟨"steps", 9⟩⟩
  obtain ⟨hrefused, -⟩ := hregister ⟨none, "large", handler, ⟨"steps", 9⟩⟩
  have hfirst : (((start ⟨.empty, ()⟩).registrations refusal? requests).find?
      (fun y => y.source = "b")).map (·.caller) = some ⟨"steps", 5⟩ := by cbv
  have hnew : ((start ⟨.empty, ()⟩).registrations refusal? requests).find?
      (fun y => y.source = "large") = none := by cbv
  obtain ⟨first, hfind, hcaller⟩ := Option.map_eq_some_iff.1 hfirst
  rw [hfind] at hduplicate
  dsimp only at hduplicate
  rw [hcaller] at hduplicate
  rw [hnew] at hrefused
  have hconversion : (((start ⟨.empty, ()⟩).after refusal? requests).respond refusal?
      (.execute .empty "a 9223372036854775808" none none)).1 =
        .executed (.error (.conversion "a 9223372036854775808" ⟨0, "9223372036854775808", .int⟩)) := by
    cbv
  have hcalls := (hexecute _ _ _ _ _ hconversion (.inr ⟨_, _, rfl⟩)).2
  refine ⟨refusal?, handler, requests, hdefinitions, rfl, ?_, hduplicate, hstays _ hduplicate, hrefused.trans (by cbv), ?_⟩
  · rw [hindex, hregistered]
    rfl
  · rw [hcalls]
    cbv

end Session

end Gherkin
