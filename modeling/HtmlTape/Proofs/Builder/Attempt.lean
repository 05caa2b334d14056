import HtmlTape.Builder.Expr
import HtmlTape.Proofs.Recorder.Traceless

/-!
# Attempts that fail

Evaluating an expression makes requests, and ends at the level where it began without ever closing
this level (`Expr.stays_eval`).  So a recorder is always reached by requests
(`Expr.reaches_course`), and an attempt that fails, whatever stands in it, makes the requests of an
aborted fragment (`Expr.aborts_of_attempt`).  Aborted fragments leave no trace
(`Recorder.traceless_of_reaches`).
-/

namespace HtmlTape

/-! ### Requests that stay at their level -/

/-- The requests lead from `r` to `r'`, at the same level, and no level around it is left in
between.  Where a level is open around the innermost one, they are requests inside of it. -/
structure Recorder.StaysBy (calls : List SpelledCall) (r r' : Recorder) : Prop where
  granted : ∃ answers, r.requestEach calls = .ok (answers, r')
  outer : r'.outer.length = r.outer.length
  inside : ∀ depth < r.outer.length, inside? depth r calls = some r'

/-- Some requests lead from `r` to `r'` and stay at their level. -/
def Recorder.Stays (r r' : Recorder) : Prop := ∃ calls, StaysBy calls r r'

namespace Recorder

variable {r s t r' : Recorder} {depth : Nat} {call : SpelledCall} {answer : Answer}

theorem inside?_append {as bs : List SpelledCall} (h : inside? depth r as = some s)
    (h' : inside? depth s bs = some t) : inside? depth r (as ++ bs) = some t := by
  induction as generalizing r with
  | nil =>
    obtain rfl := inside?_nil h
    exact h'
  | cons call as ih =>
    have hlt := lt_of_inside? h
    obtain ⟨answer, u, hr, hrest⟩ := inside?_cons h
    rw [List.cons_append, inside?, if_pos hlt, hr]
    exact ih hrest

theorem inside?_singleton (hr : r.request call = .ok (answer, r')) (hlt : depth < r.outer.length)
    (hlt' : depth < r'.outer.length) : inside? depth r [call] = some r' := by
  rw [inside?, if_pos hlt, hr]
  show inside? depth r' [] = _
  rw [inside?, if_pos hlt']

theorem requestEach_singleton (hr : r.request call = .ok (answer, r')) :
    r.requestEach [call] = .ok ([answer], r') := by
  rw [requestEach, hr]
  rfl

theorem StaysBy.stays {calls : List SpelledCall} (h : StaysBy calls r r') : r.Stays r' :=
  ⟨calls, h⟩

theorem StaysBy.refl (r : Recorder) : StaysBy [] r r := by
  refine ⟨⟨[], rfl⟩, rfl, ?_⟩
  intro depth hlt
  rw [inside?, if_pos hlt]

theorem Stays.refl (r : Recorder) : r.Stays r := (StaysBy.refl r).stays

theorem Stays.trans (h : r.Stays s) (h' : s.Stays t) : r.Stays t := by
  obtain ⟨as, ⟨answers, ha⟩, houter, hinside⟩ := h
  obtain ⟨bs, ⟨answers', hb⟩, houter', hinside'⟩ := h'
  refine ⟨as ++ bs, ⟨_, requestEach_append ha hb⟩, houter'.trans houter, ?_⟩
  intro depth hlt
  exact inside?_append (hinside depth hlt) (hinside' depth (houter ▸ hlt))

/-- A request that opens and closes no level. -/
theorem Stays.of_request (call : SpelledCall) (hr : r.request call = .ok (answer, r'))
    (houter : r'.outer.length = r.outer.length) : r.Stays r' :=
  ⟨[call], ⟨_, requestEach_singleton hr⟩, houter,
    fun _ hlt => inside?_singleton hr hlt (houter ▸ hlt)⟩

theorem StaysBy.bracket {opening closing : SpelledCall} {answer' : Answer}
    {inner : List SpelledCall} (hopen : r.request opening = .ok (answer, s))
    (hdeeper : s.outer.length = r.outer.length + 1)
    (h : StaysBy inner s t) (hclose : t.request closing = .ok (answer', r'))
    (houter : r'.outer.length = r.outer.length) :
    StaysBy (opening :: inner ++ [closing]) r r' := by
  obtain ⟨⟨answers, hinner⟩, hlength, hinside⟩ := h
  refine ⟨⟨_, requestEach_append (requestEach_append (requestEach_singleton hopen) hinner)
    (requestEach_singleton hclose)⟩, houter, ?_⟩
  intro depth hlt
  have hlt₁ : depth < s.outer.length := by omega
  have hlt₂ : depth < t.outer.length := by omega
  exact inside?_append (inside?_append (inside?_singleton hopen hlt hlt₁) (hinside depth hlt₁))
    (inside?_singleton hclose hlt₂ (houter ▸ hlt))

theorem StaysBy.fragment {inner : List SpelledCall} {closing : SpelledCall} {parent : Level}
    {outer : List Level} (h : StaysBy inner r.beginFragment t)
    (hclose : t.request closing = .ok (answer, r')) (houter : t.outer = parent :: outer)
    (houter' : r'.outer = outer) : StaysBy (.beginFragment :: inner ++ [closing]) r r' := by
  have hbegin : r.request .beginFragment = .ok (.done, r.beginFragment) := rfl
  refine .bracket hbegin rfl h hclose ?_
  have hlength : t.outer.length = r.outer.length + 1 := h.outer
  rw [houter, List.length_cons] at hlength
  rw [houter']
  exact Nat.succ.inj hlength

theorem StaysBy.ended {inner : List SpelledCall} {o : Nat} (h : StaysBy inner r.beginFragment t)
    (hend : t.endFragment = .ok (o, r')) :
    StaysBy (.beginFragment :: inner ++ [.endFragment]) r r' := by
  obtain ⟨parent, outer, _, houter, _, _, houter', _⟩ := endFragment_eq_ok hend
  have hrequest : t.request .endFragment = .ok (.record o, r') :=
    congrArg (Except.map Answer.ofRecord) hend
  exact h.fragment hrequest houter houter'

theorem StaysBy.aborted {inner : List SpelledCall} (h : StaysBy inner r.beginFragment t)
    (habort : t.abortFragment = .ok r') :
    StaysBy (.beginFragment :: inner ++ [.abortFragment]) r r' := by
  obtain ⟨parent, outer, _, houter, hr'⟩ := abortFragment_eq_ok habort
  have hrequest : t.request .abortFragment = .ok (.done, r') :=
    congrArg (Except.map Answer.ofRecorder) habort
  exact h.fragment hrequest houter (hr' ▸ rfl)

/-- Requests that stay inside of a fragment are aborted with it. -/
theorem StaysBy.aborts {inner : List SpelledCall} (h : StaysBy inner r.beginFragment t)
    (habort : t.abortFragment = .ok r') :
    r.Aborts (.beginFragment :: inner ++ [.abortFragment]) r' := by
  refine ⟨inner, rfl, ?_⟩
  have hinner : inside? r.outer.length r.beginFragment inner = some t :=
    h.inside r.outer.length (Nat.lt_succ_self _)
  rw [abortAfter?, hinner]
  show (t.abortFragment.toOption.bind _) = _
  rw [habort]
  exact if_pos (h.aborted habort).outer

end Recorder

/-! ### Steps of building -/

/-- Where the step succeeds, it makes requests that stay at their level. -/
def Build.Stays {α : Type} (x : Build α) : Prop :=
  ∀ ⦃r r' : Recorder⦄ ⦃a : α⦄, x r = .ok (a, r') → r.Stays r'

namespace Build

variable {α β : Type}

theorem stays_pure (a : α) : Stays (pure a) := by
  intro r r' b h
  cases h
  exact .refl r

theorem Stays.bind {x : Build α} {f : α → Build β} (hx : x.Stays) (hf : ∀ a, (f a).Stays) :
    (x >>= f).Stays := by
  intro r r' b h
  obtain ⟨⟨a, s⟩, hs, h⟩ := of_bind_eq_ok h
  exact (hx hs).trans (hf a h)

theorem stays_entry {kind : TokenKind} {record : Recorder → Except Fault (Nat × Recorder)}
    (call : SpelledCall) (h : ∀ {r r' : Recorder} {o : Nat}, record r = .ok (o, r') →
      r.request call = .ok (.record o, r') ∧ r'.outer.length = r.outer.length) :
    Stays (entry kind record) := by
  intro r r' token hr
  obtain ⟨⟨o, s⟩, hs, he⟩ := of_map_eq_ok hr
  cases he
  obtain ⟨hrequest, houter⟩ := h hs
  exact .of_request call hrequest houter

theorem stays_doctype : doctype.Stays :=
  stays_entry .doctype fun h => by cases h; exact ⟨rfl, rfl⟩

theorem stays_text (value : String) : (text value).Stays :=
  stays_entry (.text value) fun h => by cases h; exact ⟨rfl, rfl⟩

theorem stays_raw (value : String) : (raw value).Stays :=
  stays_entry (.raw value) fun h => by cases h; exact ⟨rfl, rfl⟩

theorem stays_attr (name : AttributeName) (value : String) : (attr name value).Stays := by
  refine stays_entry (.valued (.coded name) value) fun {r r' o} h => ⟨?_, ?_⟩
  · exact congrArg (Except.map Answer.ofRecord) h
  · obtain ⟨_, _, h⟩ := of_bind_eq_ok h
    cases h
    rfl

theorem stays_boolAttr (name : AttributeName) : (boolAttr name).Stays := by
  refine stays_entry (.boolean (.coded name)) fun {r r' o} h => ⟨?_, ?_⟩
  · exact congrArg (Except.map Answer.ofRecord) h
  · obtain ⟨_, _, h⟩ := of_bind_eq_ok h
    cases h
    rfl

theorem stays_prepared (p : PreparedAttribute) : (prepared p).Stays := stays_attr p.name p.value

theorem stays_flatten (args : List Token) : (flatten args).Stays := by
  refine stays_entry (.fragment args) fun {r r' o} h => ⟨?_, ?_⟩
  · exact congrArg (Except.map Answer.ofRecord) h
  · obtain ⟨_, hend⟩ := Recorder.fragment_eq_ok h
    obtain ⟨parent, outer, _, houter, _, _, houter', _⟩ := Recorder.endFragment_eq_ok hend
    cases houter
    rw [houter']

theorem stays_nextId : nextId.Stays := by
  intro r r' id h
  cases h
  exact .of_request .nextId rfl rfl

theorem stays_lookUp {intern : Recorder → String → Except NameError (α × Recorder)} {name : String}
    (call : SpelledCall) {found : α → Call ElementName AttributeName}
    (find : Names → Except NameError (α × Names))
    (hcall : Lookup.call call = Lookup.of intern (.spelled name) >>= fun a => pure (found a))
    (hstep : ∀ (r : Recorder) (a : α), ∃ answer, r.step (found a) = .ok (answer, r))
    (hintern : ∀ r, intern r name = (find r.names).map fun p => (p.1, { r with names := p.2 })) :
    (lookUp intern name).Stays := by
  intro r r' result h
  have hrun := Lookup.run_of intern name r
  rw [lookUp] at h
  split at h
  · rename_i a _ heq
    cases h
    rw [heq] at hrun
    obtain ⟨answer, hanswer⟩ := hstep r' a
    have hrequest : r.request call = .ok (answer, r') := by
      rw [Recorder.request, hcall, Lookup.run_bind_ok _ hrun]
      exact hanswer
    obtain ⟨_, _, he⟩ := of_map_eq_ok ((hintern r).symm.trans heq)
    cases he
    exact .of_request call hrequest rfl
  · rename_i e heq
    cases h
    rw [heq] at hrun
    have hrequest : r.request call = .ok (.refused e, r) := by
      rw [Recorder.request, hcall, Lookup.run_bind_error _ hrun]
    exact .of_request call hrequest rfl

theorem stays_lookUpElement (name : String) : (lookUp Recorder.internElement name).Stays :=
  stays_lookUp (.internElement (.spelled name)) (·.internElement name) rfl (fun _ _ => ⟨_, rfl⟩)
    fun _ => rfl

theorem stays_lookUpAttribute (name : String) : (lookUp Recorder.internAttribute name).Stays :=
  stays_lookUp (.internAttribute (.spelled name)) (·.internAttribute name) rfl
    (fun _ _ => ⟨_, rfl⟩) fun _ => rfl

theorem stays_require {intern : Recorder → String → Except NameError (α × Recorder)} {name : String}
    (h : (lookUp intern name).Stays) : (require intern name).Stays := by
  refine h.bind fun result => ?_
  cases result with
  | ok code => exact stays_pure code
  | error e =>
    intro r r' a h
    cases h

theorem request_openWith {r s : Recorder} {name : ElementName} {prepared : List PreparedAttribute}
    {args : List Token} (h : r.openElementWith name prepared args = .ok s) :
    r.request (.openWith (.coded name) (prepared.map fun p => (.coded p.name, p.value)) args) =
      .ok (.done, s) := by
  have hcoded : (prepared.map fun p => (p.name, p.value)).map (fun p => (Spelling.coded p.1, p.2)) =
      prepared.map fun p => (.coded p.name, p.value) := List.map_map
  have hprepared : (prepared.map fun p => (p.name, p.value)).map
      (fun a => PreparedAttribute.mk a.1 a.2) = prepared := by
    rw [List.map_map]
    exact List.map_id prepared
  rw [← hcoded]
  refine (Recorder.request_coded r (.openWith name _ args)).trans ?_
  show (r.openElementWith name ((prepared.map fun p => (p.name, p.value)).map fun a =>
    PreparedAttribute.mk a.1 a.2) args).map _ = _
  rw [hprepared, h]
  rfl

theorem stays_elementWith (name : ElementName) (attributes : List PreparedAttribute)
    (args : List Token) : (elementWith name attributes args).Stays := by
  intro r r' token h
  obtain ⟨⟨_, s⟩, hopen, hclose⟩ := of_bind_eq_ok h
  obtain ⟨s, hopen, he⟩ := of_map_eq_ok hopen
  cases he
  obtain ⟨⟨o, t⟩, hclose, he⟩ := of_map_eq_ok hclose
  cases he
  have hdeeper : s.outer.length = r.outer.length + 1 := by
    obtain ⟨_, _, t, hprepared, rfl⟩ := Recorder.openElementWith_eq_ok hopen
    obtain ⟨_, rfl⟩ := Recorder.preparedAttributes_eq_ok _ hprepared
    rfl
  have houter : r'.outer.length = r.outer.length := by
    obtain ⟨_, _, _, _, houter, _, _, _, houter', _⟩ := Recorder.closeElement_eq_ok hclose
    rw [houter, List.length_cons] at hdeeper
    rw [houter']
    exact Nat.succ.inj hdeeper
  have hcloses : s.request .closeElement = .ok (.record o, r') :=
    congrArg (Except.map Answer.ofRecord) hclose
  exact (Recorder.StaysBy.bracket (request_openWith hopen) hdeeper (.refl s) hcloses houter).stays

theorem stays_elementText (name : ElementName) (value : String) :
    (elementText name value).Stays :=
  (stays_text value).bind fun child => stays_elementWith name [] [child]

theorem stays_take : take.Stays := by
  intro r r' t h
  obtain ⟨houter, _, hnew, _⟩ := Recorder.finish_eq_ok h
  have hrequest : r.request .finish = .ok (.recording t, r') := by
    show r.finish.map _ = _
    rw [show r.finish = .ok (t, r') from h]
    rfl
  refine .of_request .finish hrequest ?_
  rw [houter, hnew]
  rfl

end Build

/-! ### Steps of an evaluation -/

def Eval.Stays {α : Type} (x : Eval α) : Prop :=
  ∀ ⦃s s' : Evaluation⦄ ⦃a : α⦄, x s = .ok a s' → s.recorder.Stays s'.recorder

namespace Eval

variable {α β ε : Type} {s s' : Evaluation}

theorem of_bind_eq_ok {x : Eval α} {f : α → Eval β} {b : β} (h : (x >>= f) s = .ok b s') :
    ∃ a t, x s = .ok a t ∧ f a t = .ok b s' := by
  change EStateM.bind x f s = _ at h
  rw [EStateM.bind] at h
  split at h
  · rename_i a t hx
    exact ⟨a, t, hx, h⟩
  · cases h

theorem of_lift_eq_ok {x : Build α} {a : α} (h : (liftM x : Eval α) s = .ok a s') :
    ∃ r, x s.recorder = .ok (a, r) ∧ s' = { s with recorder := r } := by
  simp only [liftM, monadLift, MonadLift.monadLift] at h
  cases hx : x s.recorder with
  | ok p =>
    rw [hx] at h
    cases h
    exact ⟨p.2, rfl, rfl⟩
  | error fault =>
    rw [hx] at h
    cases h

theorem stays_pure (a : α) : Stays (pure a) := by
  intro s s' b h
  cases h
  exact .refl _

theorem Stays.bind {x : Eval α} {f : α → Eval β} (hx : x.Stays) (hf : ∀ a, (f a).Stays) :
    (x >>= f).Stays := by
  intro s s' b h
  obtain ⟨a, t, ht, h⟩ := of_bind_eq_ok h
  exact (hx ht).trans (hf a h)

theorem stays_lift {x : Build α} (h : x.Stays) : Stays (liftM x) := by
  intro s s' a hs
  obtain ⟨r, hr, rfl⟩ := of_lift_eq_ok hs
  exact h hr

theorem stays_modify {f : Evaluation → Evaluation} (h : ∀ s, (f s).recorder = s.recorder) :
    Stays (modify f) := by
  intro s s' a hs
  cases hs
  rw [h s]
  exact .refl _

theorem Stays.store {x : Eval α} (hx : x.Stays) {f : α → Evaluation → Evaluation} {b : α → β}
    (hf : ∀ a s, (f a s).recorder = s.recorder) :
    (x >>= fun a => modify (f a) >>= fun _ => pure (b a)).Stays :=
  hx.bind fun a => (stays_modify (hf a)).bind fun _ => stays_pure (b a)

theorem stays_stored (table : Evaluation → List (String × α)) (key : String) :
    Stays (stored table key) := by
  intro s s' a h
  obtain ⟨t, u, hget, h⟩ := of_bind_eq_ok h
  cases hget
  cases hlookup : (table s).lookup key with
  | none =>
    rw [hlookup] at h
    cases h
  | some b =>
    rw [hlookup] at h
    cases h
    exact .refl _

theorem stays_note (n : Note) : Stays (note n) := stays_modify fun _ => rfl

theorem stays_elementName (name : NameExpr) : (elementName name).Stays := by
  cases name with
  | spelled name => exact stays_lift (Build.stays_require (Build.stays_lookUpElement name))
  | stored key => exact stays_stored _ key

theorem stays_attributeName (name : NameExpr) : (attributeName name).Stays := by
  cases name with
  | spelled name => exact stays_lift (Build.stays_require (Build.stays_lookUpAttribute name))
  | stored key => exact stays_stored _ key

theorem stays_prepared (p : PreparedExpr) : (prepared p).Stays := by
  cases p with
  | id value => exact stays_pure _
  | className value => exact stays_pure _
  | named name value => exact (stays_attributeName name).bind fun _ => stays_pure _
  | stored key => exact stays_stored _ key

theorem Stays.mapM {f : α → Eval β} (hf : ∀ a, (f a).Stays) (as : List α) :
    (as.mapM f).Stays := by
  induction as with
  | nil =>
    rw [List.mapM_nil]
    exact stays_pure []
  | cons a as ih =>
    rw [List.mapM_cons]
    exact (hf a).bind fun b => ih.bind fun bs => stays_pure (b :: bs)

theorem stays_noteCode {code : α → Nat} {lookUp : Build (Except NameError α)} (h : lookUp.Stays) :
    (noteCode code lookUp).Stays := by
  refine (stays_lift h).bind fun result => ?_
  cases result with
  | ok name => exact stays_note _
  | error e => exact stays_note _

/-! ### Fragments -/

theorem stays_collect {content : Eval Unit} (h : content.Stays) :
    (Build.collect content).Stays := by
  intro s s' token hs
  obtain ⟨_, s₁, hbegin, hs⟩ := of_bind_eq_ok hs
  obtain ⟨_, s₂, hcontent, hlast⟩ := of_bind_eq_ok hs
  obtain ⟨_, hbegin, rfl⟩ := of_lift_eq_ok hbegin
  cases hbegin
  obtain ⟨r', hclose, rfl⟩ := of_lift_eq_ok hlast
  obtain ⟨⟨o, t⟩, hend, he⟩ := of_map_eq_ok hclose
  cases he
  obtain ⟨inner, hinner⟩ := h hcontent
  exact (hinner.ended hend).stays

/-- What comes of an attempt: its content succeeds and is ended, or fails and is aborted. -/
theorem of_tryCollect_eq_ok {content : Eval (Except ε Unit)} (h : content.Stays)
    {result : Except ε Token} (hs : Build.tryCollect content s = .ok result s') :
    s.recorder.Stays s'.recorder ∧ ∃ s₁ outcome s₂, content s₁ = .ok outcome s₂ ∧
      ∀ e, outcome = .error e → result = .error e ∧
        ∃ segment, s.recorder.Aborts segment s'.recorder := by
  obtain ⟨_, s₁, hbegin, hs⟩ := of_bind_eq_ok hs
  obtain ⟨outcome, s₂, hcontent, hlast⟩ := of_bind_eq_ok hs
  obtain ⟨_, hbegin, rfl⟩ := of_lift_eq_ok hbegin
  cases hbegin
  obtain ⟨inner, hinner⟩ := h hcontent
  cases outcome with
  | ok _ =>
    obtain ⟨_, s₃, hlast, hpure⟩ := of_bind_eq_ok hlast
    cases hpure
    obtain ⟨r', hclose, rfl⟩ := of_lift_eq_ok hlast
    obtain ⟨⟨o, t⟩, hend, he⟩ := of_map_eq_ok hclose
    cases he
    refine ⟨(hinner.ended hend).stays, _, _, _, hcontent, ?_⟩
    intro e he
    cases he
  | error e =>
    obtain ⟨_, s₃, hlast, hpure⟩ := of_bind_eq_ok hlast
    cases hpure
    obtain ⟨r', hclose, rfl⟩ := of_lift_eq_ok hlast
    obtain ⟨t, habort, he⟩ := of_map_eq_ok hclose
    cases he
    refine ⟨(hinner.aborted habort).stays, _, _, _, hcontent, ?_⟩
    rintro _ ⟨⟩
    exact ⟨rfl, _, hinner.aborts habort⟩

end Eval

/-! ### Expressions -/

namespace Expr

variable {s s' : Evaluation}

/-- What an attempt records, before it is known whether it fails. -/
def outcome (content : List Expr) (failure : Option String) : Eval (Except String Unit) := do
  let _ ← evalAll content
  match failure with
  | none => return Except.ok ()
  | some e => return Except.error e

theorem stays_outcome {content : List Expr} (h : (evalAll content).Stays)
    (failure : Option String) : (outcome content failure).Stays := by
  refine h.bind fun _ => ?_
  cases failure with
  | none => exact Eval.stays_pure _
  | some e => exact Eval.stays_pure _

theorem eval_attempt (content : List Expr) (failure : Option String) :
    (attempt content failure).eval = Build.tryCollect (outcome content failure) >>= fun result =>
      match result with
      | .ok token => return token
      | .error e => do
        Eval.note (.failed e)
        return .noop := rfl

mutual

/-- **Evaluating an expression** makes requests that stay at their level. -/
theorem stays_eval : ∀ e : Expr, e.eval.Stays
  | .doctype => by
    rw [eval]
    exact Eval.stays_lift Build.stays_doctype
  | .noop => by
    rw [eval]
    exact Eval.stays_pure _
  | .text value => by
    rw [eval]
    exact Eval.stays_lift (Build.stays_text value)
  | .raw value => by
    rw [eval]
    exact Eval.stays_lift (Build.stays_raw value)
  | .id value => by
    rw [eval]
    exact Eval.stays_lift (Build.stays_attr .id value)
  | .className value => by
    rw [eval]
    exact Eval.stays_lift (Build.stays_attr .className value)
  | .attr name value => by
    rw [eval]
    exact (Eval.stays_attributeName name).bind fun name =>
      Eval.stays_lift (Build.stays_attr name value)
  | .boolAttr name => by
    rw [eval]
    exact (Eval.stays_attributeName name).bind fun name =>
      Eval.stays_lift (Build.stays_boolAttr name)
  | .idAttr name => by
    rw [eval]
    exact (Eval.stays_attributeName name).bind fun name =>
      (Eval.stays_lift Build.stays_nextId).bind fun id =>
        Eval.stays_lift (Build.stays_attr name id)
  | .prepared p => by
    rw [eval]
    exact (Eval.stays_prepared p).bind fun p => Eval.stays_lift (Build.stays_prepared p)
  | .elementText name value => by
    rw [eval]
    exact (Eval.stays_elementName name).bind fun name =>
      Eval.stays_lift (Build.stays_elementText name value)
  | .element name args => by
    rw [eval]
    exact (Eval.stays_elementName name).bind fun name =>
      (stays_evalAll args).bind fun args =>
        Eval.stays_lift (Build.stays_elementWith name [] args)
  | .elementWith name attributes args => by
    rw [eval]
    exact (Eval.stays_elementName name).bind fun name =>
      (Eval.Stays.mapM Eval.stays_prepared attributes).bind fun attributes =>
        (stays_evalAll args).bind fun args =>
          Eval.stays_lift (Build.stays_elementWith name attributes args)
  | .flatten args => by
    rw [eval]
    exact (stays_evalAll args).bind fun args => Eval.stays_lift (Build.stays_flatten args)
  | .collect content => by
    rw [eval]
    exact Eval.stays_collect ((stays_evalAll content).bind fun _ => Eval.stays_pure ())
  | .attempt content failure => by
    rw [eval_attempt]
    refine Eval.Stays.bind ?_ fun result => ?_
    · intro s s' result hs
      exact (Eval.of_tryCollect_eq_ok (stays_outcome (stays_evalAll content) failure) hs).1
    · cases result with
      | ok token => exact Eval.stays_pure token
      | error e => exact (Eval.stays_note _).bind fun _ => Eval.stays_pure _
  | .bind key value => by
    rw [eval]
    exact (stays_eval value).store fun _ _ => rfl
  | .stored key => by
    rw [eval]
    exact Eval.stays_stored _ key
  | .bindElement key name => by
    rw [eval]
    exact (Eval.stays_elementName name).store fun _ _ => rfl
  | .bindAttribute key name => by
    rw [eval]
    exact (Eval.stays_attributeName name).store fun _ _ => rfl
  | .bindPrepared key p => by
    rw [eval]
    exact (Eval.stays_prepared p).store fun _ _ => rfl
  | .noteId => by
    rw [eval]
    exact (Eval.stays_lift Build.stays_nextId).bind fun id =>
      (Eval.stays_note _).bind fun _ => Eval.stays_pure _
  | .noteElement name => by
    rw [eval]
    exact (Eval.stays_noteCode (Build.stays_lookUpElement name)).bind fun _ => Eval.stays_pure _
  | .noteAttribute name => by
    rw [eval]
    exact (Eval.stays_noteCode (Build.stays_lookUpAttribute name)).bind fun _ => Eval.stays_pure _
  | .take => by
    rw [eval]
    exact (Eval.stays_lift Build.stays_take).store fun _ _ => rfl

theorem stays_evalAll : ∀ es : List Expr, (evalAll es).Stays
  | [] => by
    rw [evalAll]
    exact Eval.stays_pure _
  | e :: es => by
    rw [evalAll]
    exact (stays_eval e).bind fun token =>
      (stays_evalAll es).bind fun tokens => Eval.stays_pure _

end

/-! ### Attempts -/

/-- **An attempt that fails makes the requests of an aborted fragment**, whatever stands in it. -/
theorem aborts_of_attempt {content : List Expr} {failure : String} {token : Token}
    (h : (attempt content (some failure)).eval s = .ok token s') :
    ∃ segment, s.recorder.Aborts segment s'.recorder := by
  rw [eval_attempt] at h
  obtain ⟨result, t, htry, hnote⟩ := Eval.of_bind_eq_ok h
  obtain ⟨_, s₁, outcome, s₂, hcontent, hfails⟩ :=
    Eval.of_tryCollect_eq_ok (stays_outcome (stays_evalAll content) _) htry
  obtain ⟨tokens, _, _, hpure⟩ := Eval.of_bind_eq_ok hcontent
  cases hpure
  obtain ⟨hresult, segment, haborts⟩ := hfails failure rfl
  cases hresult
  cases hnote
  exact ⟨segment, haborts⟩

/-- **The recorder of an evaluation is reached by requests**, if there is no fault. -/
theorem reaches_course {before : List SpelledCall} (hr : Recorder.Reaches before s.recorder)
    {body : List Expr} (h : (course s body).fault = none) :
    ∃ calls, Recorder.Reaches calls (course s body).state.recorder := by
  induction body generalizing s before with
  | nil => exact ⟨before, hr⟩
  | cons e body ih =>
    rw [course] at h ⊢
    cases he : e.eval s with
    | error fault t =>
      rw [he] at h
      cases h
    | ok token t =>
      rw [he] at h
      obtain ⟨answers, hbefore⟩ := hr
      obtain ⟨calls, ⟨answers', hcalls⟩, _, _⟩ := stays_eval e he
      exact ih ⟨_, Recorder.requestEach_append hbefore hcalls⟩ h

end Expr

namespace Recorder

/-- **What is aborted leaves no trace.**  From every recorder that is reached by requests, a
fragment that is begun, gets granted requests inside of it and is aborted leaves no trace; and an
attempt that fails, whatever stands in it, is such a fragment. -/
theorem traceless_of_reaches {before : List SpelledCall} {r : Recorder} (hr : Reaches before r) :
    (∀ (segment : List SpelledCall) (r' : Recorder), r.Aborts segment r' → r.Traceless r') ∧
      ∀ (s s' : Evaluation) (content : List Expr) (failure : String) (token : Token),
        s.recorder = r → (Expr.attempt content (some failure)).eval s = .ok token s' →
          ∃ segment, r.Aborts segment s'.recorder := by
  constructor
  · intro segment r' haborts
    have hr' : Reaches (before ++ segment) r' := haborts.reaches hr
    exact haborts.rollback.traceless hr hr'
  · rintro s s' content failure token rfl heval
    exact Expr.aborts_of_attempt heval

/-- A paragraph that is open, after a name that is known. -/
def keptCalls : List SpelledCall :=
  [.internElement (.spelled "x-old"), .openElement (.spelled "p"), .text "a"]

/-- An element that is begun by a known name, with a new name and with fragments that are aborted
and ended. -/
def droppedCalls : List SpelledCall :=
  [.openElement (.coded ⟨113⟩), .boolean (.spelled "x-gone"), .text "b", .beginFragment, .raw "c",
    .abortFragment, .beginFragment, .text "d", .endFragment, .closeElement]

/-- A new attribute, and an element with the known name that adopts it with the text before it. -/
def laterCalls : List SpelledCall :=
  [.boolean (.spelled "x-new"), .adopt (.coded ⟨113⟩) 2, .closeElement, .closeElement]

/-- An evaluation that has recorded a text. -/
def keptState : Evaluation := (Expr.course Evaluation.new [.text "a"]).state

/-- An element with a new name, an attempt that fails and a fragment. -/
def droppedContent : List Expr :=
  [.element (.spelled "x-gone") [.boolAttr (.spelled "hidden"), .text "b"],
    .attempt [.raw "c"] (some "inner"), .collect [.text "d"]]

theorem kept_traceless :
    (∃ r r', Reaches keptCalls r ∧
      r.Aborts (.beginFragment :: droppedCalls ++ [.abortFragment]) r' ∧
      r.Traceless r' ∧ ∃ p p', r'.finishAfter laterCalls = .ok p ∧
        r.finishAfter laterCalls = .ok p' ∧ SameEnd p p') ∧
      ∃ before s' segment, Reaches before keptState.recorder ∧
        (Expr.attempt droppedContent (some "outer")).eval keptState = .ok .noop s' ∧
        keptState.recorder.Aborts segment s'.recorder := by
  constructor
  · have hruns : (new.requestEach keptCalls).toOption.bind (fun result =>
        (result.2.abortAfter? droppedCalls).map fun r' =>
          (result.2.names.elementText? ⟨113⟩, r'.hasRoom laterCalls,
            (r'.finishAfter laterCalls).toOption.isSome)) = some (some "x-old", true, true) := by
      decide +kernel
    obtain ⟨⟨answers, r⟩, hkept, hruns⟩ := Option.bind_eq_some_iff.1 hruns
    obtain ⟨r', hdropped, hruns⟩ := Option.map_eq_some_iff.1 hruns
    simp only [Prod.mk.injEq] at hruns
    obtain ⟨htext, hroom, hfinish⟩ := hruns
    have hr : Reaches keptCalls r := by
      refine ⟨answers, ?_⟩
      cases hc : new.requestEach keptCalls with
      | error fault => rw [hc] at hkept; cases hkept
      | ok result => rw [hc] at hkept; cases hkept; rfl
    have haborts : r.Aborts (.beginFragment :: droppedCalls ++ [.abortFragment]) r' :=
      ⟨droppedCalls, rfl, hdropped⟩
    have htraceless := (traceless_of_reaches hr).1 _ r' haborts
    have hknown : r.names.SameElement r.names ⟨113⟩ ⟨113⟩ := ⟨"x-old", htext, htext⟩
    have htwins : Twins r' r laterCalls laterCalls := by
      refine htraceless.twins laterCalls ?_
      rintro call (_ | ⟨_, _ | ⟨_, _ | ⟨_, _ | ⟨_, ⟨⟩⟩⟩⟩⟩)
      · exact ⟨.boolean (.spelled "x-new"), rfl⟩
      · exact ⟨.adopt 2 (.coded hknown), rfl⟩
      · exact ⟨.closeElement, rfl⟩
      · exact ⟨.closeElement, rfl⟩
    refine ⟨r, r', hr, haborts, htraceless, ?_⟩
    have hends := htraceless.continued laterCalls laterCalls htwins hroom
    generalize hp : r'.finishAfter laterCalls = x at hends hfinish
    generalize hp' : r.finishAfter laterCalls = y at hends
    cases hends with
    | fault fault => cases hfinish
    | @granted p p' hends => exact ⟨p, p', rfl, rfl, hends⟩
  · have hnew : Reaches [] Evaluation.new.recorder := ⟨[], rfl⟩
    obtain ⟨before, hr⟩ : ∃ before, Reaches before keptState.recorder :=
      Expr.reaches_course hnew (by decide +kernel)
    have hnoop : ((Expr.attempt droppedContent (some "outer")).eval.run' keptState) =
        some .noop := by decide +kernel
    delta EStateM.run' EStateM.run at hnoop
    cases heval : (Expr.attempt droppedContent (some "outer")).eval keptState with
    | error fault s' => rw [heval] at hnoop; cases hnoop
    | ok token s' =>
      rw [heval] at hnoop
      cases hnoop
      obtain ⟨segment, haborts⟩ := (traceless_of_reaches hr).2 _ s' _ _ _ rfl heval
      exact ⟨before, s', segment, hr, rfl, haborts⟩

end Recorder

end HtmlTape
