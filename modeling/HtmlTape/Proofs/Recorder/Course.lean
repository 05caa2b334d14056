import HtmlTape.Proofs.Name.Growth
import HtmlTape.Recorder.Call
import Mathlib.Data.List.Forall2

/-!
# Courses of requests

`Recorder.requestEach` hands a recorder any requests one after another; a refused name is an
answer like any other, and the course goes on.  A recording is *made by* requests if none of them
fails and the document is finished after them.

Looking up the names of a request touches nothing but the names (`Lookup.call_local`), and names
are only ever added (`Names.Extends`): a code keeps its text until the recorder starts anew.
A relation that every single lookup keeps holds between the names before a request and after it
(`Names.Path.call`).
-/

namespace HtmlTape

/-! ### Results of steps -/

section

variable {ε α β : Type}

theorem of_bind_eq_ok {x : Except ε α} {f : α → Except ε β} {b : β} (h : x >>= f = .ok b) :
    ∃ a, x = .ok a ∧ f a = .ok b := by
  cases x with
  | error e => cases h
  | ok a => exact ⟨a, rfl, h⟩

theorem of_map_eq_ok {x : Except ε α} {f : α → β} {b : β} (h : x.map f = .ok b) :
    ∃ a, x = .ok a ∧ f a = b := by
  cases x with
  | error e => cases h
  | ok a => cases h; exact ⟨a, rfl, rfl⟩

theorem of_toOption_eq_some {x : Except ε α} {a : α} (h : x.toOption = some a) : x = .ok a := by
  cases x with
  | error e => cases h
  | ok b => cases h; rfl

theorem exists_mapM_eq_ok {P : α → β → Prop} {f : α → Except ε β} (as : List α)
    (h : ∀ a ∈ as, ∃ b, f a = .ok b ∧ P a b) :
    ∃ bs, as.mapM f = .ok bs ∧ List.Forall₂ P as bs := by
  induction as with
  | nil => exact ⟨[], rfl, .nil⟩
  | cons a as ih =>
    obtain ⟨b, hb, hP⟩ := h a List.mem_cons_self
    obtain ⟨bs, hbs, hall⟩ := ih fun a ha => h a (List.mem_cons_of_mem _ ha)
    refine ⟨b :: bs, ?_, .cons hP hall⟩
    rw [List.mapM_cons, hb, hbs]
    rfl

theorem mapM_eq_ok {f : α → Except ε β} {g : α → β} {as : List α}
    (h : ∀ a ∈ as, f a = .ok (g a)) : as.mapM f = .ok (as.map g) := by
  induction as with
  | nil => rfl
  | cons a as ih =>
    obtain ⟨ha, has⟩ := List.forall_mem_cons.1 h
    rw [List.mapM_cons, ha, ih has]
    rfl

end

/-! ### Courses -/

/-- A call with its names as they are spelled, or as codes. -/
abbrev SpelledCall := Call (Spelling ElementName) (Spelling AttributeName)

/-- The answers to a course of requests, which goes on after a refused name. -/
def Recorder.requestEach (r : Recorder) : List SpelledCall → Except Fault (List Answer × Recorder)
  | [] => .ok ([], r)
  | call :: calls => do
    let (answer, r) ← r.request call
    let (answers, r) ← r.requestEach calls
    return (answer :: answers, r)

theorem Recorder.requestEach_cons_eq_ok {r r' : Recorder} {call : SpelledCall}
    {calls : List SpelledCall} {answers : List Answer} :
    r.requestEach (call :: calls) = .ok (answers, r') ↔ ∃ answer s rest,
      r.request call = .ok (answer, s) ∧ s.requestEach calls = .ok (rest, r') ∧
        answers = answer :: rest := by
  constructor
  · intro h
    obtain ⟨⟨answer, s⟩, hs, h⟩ := of_bind_eq_ok h
    obtain ⟨⟨rest, r''⟩, hrest, h⟩ := of_bind_eq_ok h
    cases h
    exact ⟨answer, s, rest, hs, hrest, rfl⟩
  · rintro ⟨answer, s, rest, hs, hrest, rfl⟩
    rw [requestEach, hs]
    show Except.bind (s.requestEach calls) _ = _
    rw [hrest]
    rfl

/-- A recorder as it may be after some requests, the first of them to a new recorder. -/
def Recorder.Reaches (calls : List SpelledCall) (r : Recorder) : Prop :=
  ∃ answers, Recorder.new.requestEach calls = .ok (answers, r)

/-- The recording that a recorder answers when the document is finished after some requests, none
of which fails.  Among the requests may be any that finish or reset earlier documents. -/
def Recording.MadeBy (t : Recording) (calls : List SpelledCall) : Prop :=
  ∃ r r', Recorder.Reaches calls r ∧ r.finish = .ok (t, r')

def Recording.ofCalls? (calls : List SpelledCall) : Option Recording := do
  let (_, r) ← (Recorder.new.requestEach calls).toOption
  let (t, _) ← r.finish.toOption
  return t

theorem Recording.madeBy_iff {t : Recording} {calls : List SpelledCall} :
    t.MadeBy calls ↔ ofCalls? calls = some t := by
  rw [ofCalls?]
  constructor
  · rintro ⟨r, r', ⟨answers, hcalls⟩, hfinish⟩
    rw [hcalls]
    show r.finish.toOption.bind _ = _
    rw [hfinish]
    rfl
  · intro h
    obtain ⟨⟨answers, r⟩, hcalls, h⟩ := Option.bind_eq_some_iff.1 h
    obtain ⟨⟨t', r'⟩, hfinish, h⟩ := Option.bind_eq_some_iff.1 h
    cases h
    exact ⟨r, r', ⟨answers, of_toOption_eq_some hcalls⟩, of_toOption_eq_some hfinish⟩

instance (t : Recording) (calls : List SpelledCall) : Decidable (t.MadeBy calls) :=
  decidable_of_iff _ Recording.madeBy_iff.symm

/-- **Induction over a course of requests**: what holds of a new recorder and is kept by every
request holds after every course. -/
theorem Recorder.Reaches.induction {motive : List SpelledCall → Recorder → Prop}
    (start : motive [] Recorder.new)
    (step : ∀ calls r call answer r', motive calls r → r.request call = .ok (answer, r') →
      motive (calls ++ [call]) r')
    {calls : List SpelledCall} {r : Recorder} (h : Recorder.Reaches calls r) : motive calls r := by
  obtain ⟨answers, h⟩ := h
  -- the course is walked from its start, so what came before is generalized
  have key : ∀ (calls before : List SpelledCall) (s : Recorder) (answers : List Answer),
      motive before s → s.requestEach calls = .ok (answers, r) → motive (before ++ calls) r := by
    intro calls
    induction calls with
    | nil =>
      intro before s answers hs he
      cases he
      rwa [List.append_nil]
    | cons call calls ih =>
      intro before s answers hs he
      obtain ⟨answer, s', answers', hc, hcs, rfl⟩ := requestEach_cons_eq_ok.1 he
      have hstep := step before s call answer s' hs hc
      have := ih (before ++ [call]) s' answers' hstep hcs
      rwa [List.append_assoc, List.singleton_append] at this
  simpa using key calls [] Recorder.new answers start h

/-! ### Looking up names -/

def Call.bare {E A : Type} : Call E A → Call Unit Unit
  | .text value => .text value
  | .raw value => .raw value
  | .doctype => .doctype
  | .valued _ value => .valued () value
  | .boolean _ => .boolean ()
  | .openElement _ => .openElement ()
  | .openWith _ _ args => .openWith () [] args
  | .adopt _ count => .adopt () count
  | .closeElement => .closeElement
  | .beginFragment => .beginFragment
  | .fragment args => .fragment args
  | .endFragment => .endFragment
  | .abortFragment => .abortFragment
  | .finish => .finish
  | .reset => .reset
  | .nextId => .nextId
  | .internElement _ => .internElement ()
  | .internAttribute _ => .internAttribute ()

def Call.coded : Call ElementName AttributeName → SpelledCall
  | .text value => .text value
  | .raw value => .raw value
  | .doctype => .doctype
  | .valued name value => .valued (.coded name) value
  | .boolean name => .boolean (.coded name)
  | .openElement name => .openElement (.coded name)
  | .openWith name prepared args =>
    .openWith (.coded name) (prepared.map fun p => (.coded p.1, p.2)) args
  | .adopt name count => .adopt (.coded name) count
  | .closeElement => .closeElement
  | .beginFragment => .beginFragment
  | .fragment args => .fragment args
  | .endFragment => .endFragment
  | .abortFragment => .abortFragment
  | .finish => .finish
  | .reset => .reset
  | .nextId => .nextId
  | .internElement name => .internElement (.coded name)
  | .internAttribute name => .internAttribute (.coded name)

/-- A lookup that depends on the names alone and changes them alone, by adding to them. -/
def Lookup.Local {α : Type} (x : Lookup α) : Prop :=
  ∀ names : Names, ∃ (result : Except NameError α) (names' : Names), names.Extends names' ∧
    ∀ r : Recorder, r.names = names → x.run r = (result, { r with names := names' })

namespace Lookup

variable {α β : Type}

theorem local_pure (a : α) : Local (pure a) :=
  fun names => ⟨.ok a, names, .refl names, fun _ h => h ▸ rfl⟩

theorem run_bind_ok {x : Lookup α} (g : α → Lookup β) {r r' : Recorder} {a : α}
    (h : x.run r = (.ok a, r')) : (x >>= g).run r = (g a).run r' := by
  rw [ExceptT.run_bind]
  simp only [bind, StateT.bind]
  rw [h]

theorem run_bind_error {x : Lookup α} (g : α → Lookup β) {r r' : Recorder} {e : NameError}
    (h : x.run r = (.error e, r')) : (x >>= g).run r = (.error e, r') := by
  rw [ExceptT.run_bind]
  simp only [bind, StateT.bind]
  rw [h]
  rfl

theorem run_bind_eq_ok {x : Lookup α} {g : α → Lookup β} {r r' : Recorder} {b : β}
    (h : (x >>= g).run r = (.ok b, r')) :
    ∃ a s, x.run r = (.ok a, s) ∧ (g a).run s = (.ok b, r') := by
  cases hx : x.run r with
  | mk result s =>
    cases result with
    | error e =>
      rw [run_bind_error g hx] at h
      cases h
    | ok a =>
      rw [run_bind_ok g hx] at h
      exact ⟨a, s, rfl, h⟩

theorem run_of (intern : Recorder → String → Except NameError (α × Recorder)) (text : String)
    (r : Recorder) : (of intern (.spelled text)).run r =
      match intern r text with
      | .ok (name, r) => (.ok name, r)
      | .error e => (.error e, r) := rfl

theorem Local.bind {x : Lookup α} {g : α → Lookup β} (hx : x.Local) (hg : ∀ a, (g a).Local) :
    (x >>= g).Local := by
  intro names
  obtain ⟨result, names', hext, hrun⟩ := hx names
  cases result with
  | error e => exact ⟨.error e, names', hext, fun r hr => run_bind_error g (hrun r hr)⟩
  | ok a =>
    obtain ⟨result, names'', hext', hrun'⟩ := hg a names'
    refine ⟨result, names'', hext.trans hext', fun r hr => ?_⟩
    rw [run_bind_ok g (hrun r hr)]
    exact hrun' { r with names := names' } rfl

theorem Local.map {x : Lookup α} (hx : x.Local) (g : α → β) : (g <$> x).Local := by
  rw [map_eq_pure_bind]
  exact hx.bind fun a => local_pure (g a)

theorem Local.mapM {f : α → Lookup β} (hf : ∀ a, (f a).Local) (as : List α) :
    (as.mapM f).Local := by
  induction as with
  | nil => rw [List.mapM_nil]; exact local_pure []
  | cons a as ih =>
    rw [List.mapM_cons]
    exact (hf a).bind fun b => ih.bind fun bs => local_pure (b :: bs)

theorem element_local (name : Spelling ElementName) : (element name).Local := by
  cases name with
  | coded name => exact local_pure name
  | spelled text =>
    intro names
    cases h : names.internElement text with
    | error e =>
      refine ⟨.error e, names, .refl names, ?_⟩
      rintro r rfl
      rw [element, run_of, Recorder.internElement, h]
      rfl
    | ok result =>
      refine ⟨.ok result.1, result.2, Names.extends_internElement h, ?_⟩
      rintro r rfl
      rw [element, run_of, Recorder.internElement, h]
      rfl

theorem attr_local (name : Spelling AttributeName) : (attr name).Local := by
  cases name with
  | coded name => exact local_pure name
  | spelled text =>
    intro names
    cases h : names.internAttribute text with
    | error e =>
      refine ⟨.error e, names, .refl names, ?_⟩
      rintro r rfl
      rw [attr, run_of, Recorder.internAttribute, h]
      rfl
    | ok result =>
      refine ⟨.ok result.1, result.2, Names.extends_internAttribute h, ?_⟩
      rintro r rfl
      rw [attr, run_of, Recorder.internAttribute, h]
      rfl

/-- Names that are given by their codes are found at once. -/
theorem run_coded (call : Call ElementName AttributeName) (r : Recorder) :
    (Lookup.call call.coded).run r = (.ok call, r) := by
  cases call with
  | openWith name prepared args =>
    have hprepared : ((prepared.map fun p => (Spelling.coded p.1, p.2)).mapM fun p =>
        return (← Lookup.attr p.1, p.2) : Lookup _).run r = (.ok prepared, r) := by
      induction prepared with
      | nil => rfl
      | cons p prepared ih =>
        rw [List.map_cons, List.mapM_cons]
        exact (run_bind_ok _ rfl).trans (run_bind_ok _ ih)
    exact (run_bind_ok _ rfl).trans (run_bind_ok _ hprepared)
  | _ => rfl

/-- **Looking up the names of a request touches the names alone.** -/
theorem call_local (c : SpelledCall) : (Lookup.call c).Local := by
  cases c with
  | valued name value => exact (attr_local name).map (Call.valued · value)
  | boolean name => exact (attr_local name).map Call.boolean
  | openElement name => exact (element_local name).map Call.openElement
  | openWith name prepared args =>
    refine (element_local name).bind fun name => Local.bind ?_ fun _ => local_pure _
    exact Local.mapM (fun p => (attr_local p.1).map fun name => (name, p.2)) prepared
  | adopt name count => exact (element_local name).map (Call.adopt · count)
  | internElement name => exact (element_local name).map Call.internElement
  | internAttribute name => exact (attr_local name).map Call.internAttribute
  | _ => exact local_pure _

/-- **A call that is looked up differs from the spelled call by its names and attributes alone.** -/
theorem bare_eq {call : SpelledCall} {found : Call ElementName AttributeName} {r r' : Recorder}
    (h : (Lookup.call call).run r = (.ok found, r')) : found.bare = call.bare := by
  cases call with
  | valued name value | boolean name | openElement name | adopt name count | internElement name
  | internAttribute name =>
    obtain ⟨_, _, _, h⟩ := run_bind_eq_ok h
    cases h
    rfl
  | openWith name prepared args =>
    obtain ⟨_, _, _, h⟩ := run_bind_eq_ok h
    obtain ⟨_, _, _, h⟩ := run_bind_eq_ok h
    cases h
    rfl
  | _ =>
    cases h
    rfl

end Lookup

/-! ### Along lookups -/

/-- A relation between the names before and after any row of lookups. -/
structure Names.Path (R : Names → Names → Prop) : Prop where
  refl : ∀ names, R names names
  trans : ∀ {a b c}, R a b → R b c → R a c
  element : ∀ {names names' text name}, names.internElement text = .ok (name, names') →
    R names names'
  attr : ∀ {names names' text name}, names.internAttribute text = .ok (name, names') →
    R names names'

def Lookup.Moves {α : Type} (R : Names → Names → Prop) (x : Lookup α) : Prop :=
  ∀ r : Recorder, R r.names (x.run r).2.names

namespace Names.Path

variable {α β : Type} {R : Names → Names → Prop}

theorem pure (h : Path R) (a : α) : Lookup.Moves R (Pure.pure a) := fun r => h.refl r.names

theorem bind (h : Path R) {x : Lookup α} {g : α → Lookup β} (hx : x.Moves R)
    (hg : ∀ a, (g a).Moves R) : (x >>= g).Moves R := by
  intro r
  have hnames := hx r
  cases hrun : x.run r with
  | mk result r' =>
    rw [hrun] at hnames
    cases result with
    | error e =>
      rw [Lookup.run_bind_error g hrun]
      exact hnames
    | ok a =>
      rw [Lookup.run_bind_ok g hrun]
      exact h.trans hnames (hg a r')

theorem map (h : Path R) {x : Lookup α} (hx : x.Moves R) (g : α → β) : (g <$> x).Moves R := by
  rw [map_eq_pure_bind]
  exact h.bind hx fun a => h.pure (g a)

theorem mapM (h : Path R) {f : α → Lookup β} (hf : ∀ a, (f a).Moves R) (as : List α) :
    (as.mapM f).Moves R := by
  induction as with
  | nil => rw [List.mapM_nil]; exact h.pure []
  | cons a as ih =>
    rw [List.mapM_cons]
    exact h.bind (hf a) fun b => h.bind ih fun bs => h.pure (b :: bs)

theorem lookupElement (h : Path R) (name : Spelling ElementName) :
    (Lookup.element name).Moves R := by
  intro r
  cases name with
  | coded name => exact h.refl r.names
  | spelled text =>
    rw [Lookup.element, Lookup.run_of, Recorder.internElement]
    cases hi : r.names.internElement text with
    | error e => exact h.refl r.names
    | ok result => exact h.element hi

theorem lookupAttr (h : Path R) (name : Spelling AttributeName) : (Lookup.attr name).Moves R := by
  intro r
  cases name with
  | coded name => exact h.refl r.names
  | spelled text =>
    rw [Lookup.attr, Lookup.run_of, Recorder.internAttribute]
    cases hi : r.names.internAttribute text with
    | error e => exact h.refl r.names
    | ok result => exact h.attr hi

/-- **The names after a request are related to those before it.** -/
theorem call (h : Path R) (c : SpelledCall) : (Lookup.call c).Moves R := by
  cases c with
  | valued name value => exact h.map (h.lookupAttr name) (Call.valued · value)
  | boolean name => exact h.map (h.lookupAttr name) Call.boolean
  | openElement name => exact h.map (h.lookupElement name) Call.openElement
  | openWith name prepared args =>
    refine h.bind (h.lookupElement name) fun name => h.bind ?_ fun _ => h.pure _
    exact h.mapM (fun p => h.map (h.lookupAttr p.1) fun name => (name, p.2)) prepared
  | adopt name count => exact h.map (h.lookupElement name) (Call.adopt · count)
  | internElement name => exact h.map (h.lookupElement name) Call.internElement
  | internAttribute name => exact h.map (h.lookupAttr name) Call.internAttribute
  | _ => exact h.pure _

end Names.Path

/-! ### Names by their codes -/

theorem Recorder.request_coded (r : Recorder) (call : Call ElementName AttributeName) :
    r.request call.coded = r.step call := by
  rw [request, Lookup.run_coded]

/-! ### A card -/

/-- A document with an element that adopts what was recorded before it, a fragment that is dropped
and one that is kept, and a void element. -/
def Recording.cardCalls : List SpelledCall :=
  [.doctype, .valued (.spelled "class") "a", .text "é", .adopt (.spelled "x-card") 2,
    .beginFragment, .raw "gone", .abortFragment,
    .beginFragment, .valued (.spelled "class") "b", .text "<", .endFragment,
    .openElement (.spelled "br"), .boolean (.spelled "hidden"), .closeElement, .closeElement]

def Recording.card : Recording where
  words := #[242, 243, 14, 0, 1, 240, 1, 2, 245, 29, 113, 243, 14, 3, 1, 240, 4, 1, 247, 2, 11,
    15, 245, 8, 13, 244, 36, 25, 1, 246, 1, 5, 11, 15, 22, 5, 246, 248, 2, 0, 8]
  pool := "aéb<"
  names := { Names.standard with elements := ⟨standardElements.size, #["x-card"]⟩ }
  root := 37
  counters := ⟨2, 3, 3, 1, 10, 2⟩

theorem Recording.card_madeBy : card.MadeBy cardCalls := by decide +kernel

end HtmlTape
