import HtmlTape.Proofs.Builder.Abreast
import HtmlTape.Proofs.Recorder.Unwrapped

/-!
# Arguments in the place of their fragment

Where arguments are expressions that are nested in one another, `flatten` may be left out, at any
depth: its arguments are put in its place (`Expr.Inlines`).  The expressions are evaluated side by
side, on recorders that stay abreast; what they record is the same but for fragments
(`Expr.Inlines.follows`).

With the calls that are made in order this is one statement about fragments
(`Recording.fragments_transparent`): they leave no trace in the document.
-/

namespace HtmlTape

/-! ### Expressions in which fragments are left out -/

/-- The expression has no other expressions inside of it, names no token that was stored, and does
not finish the document. -/
def Expr.isSimple : Expr → Bool
  | element .. | elementWith .. | flatten _ | collect _ | attempt .. | bind .. | stored _ | take =>
    false
  | _ => true

/-- The second expressions are the first ones with the arguments of some `flatten`, at any depth, in
its place.  Tokens are handed on as they are answered; none is stored for later use. -/
inductive Expr.Inlines : List Expr → List Expr → Prop
  | nil : Inlines [] []
  | simple {es es' : List Expr} (e : Expr) (he : e.isSimple) (rest : Inlines es es') :
      Inlines (e :: es) (e :: es')
  | element {args args' es es' : List Expr} (name : NameExpr) (inside : Inlines args args')
      (rest : Inlines es es') : Inlines (.element name args :: es) (.element name args' :: es')
  | elementWith {args args' es es' : List Expr} (name : NameExpr) (attributes : List PreparedExpr)
      (inside : Inlines args args') (rest : Inlines es es') :
      Inlines (.elementWith name attributes args :: es) (.elementWith name attributes args' :: es')
  | flatten {args args' es es' : List Expr} (inside : Inlines args args')
      (rest : Inlines es es') : Inlines (.flatten args :: es) (.flatten args' :: es')
  | collect {content content' es es' : List Expr} (inside : Inlines content content')
      (rest : Inlines es es') : Inlines (.collect content :: es) (.collect content' :: es')
  | attempt {content content' es es' : List Expr} (failure : Option String)
      (inside : Inlines content content') (rest : Inlines es es') :
      Inlines (.attempt content failure :: es) (.attempt content' failure :: es')
  /-- The arguments stand in the place of their fragment. -/
  | inline {args args' es es' : List Expr} (inside : Inlines args args')
      (rest : Inlines es es') : Inlines (.flatten args :: es) (args' ++ es')

namespace Expr

open Eval (Follows Answered AnsweredOne)

variable {s s' u : Evaluation} {e e' : Expr} {es es' args args' content content' : List Expr}
  {token : Token}

/-! ### Simple expressions -/

/-- **A simple expression records the same on both recorders.** -/
theorem follows_simple (e : Expr) (he : e.isSimple) : Follows AnsweredOne e.eval e.eval := by
  cases e with
  | doctype => rw [eval]; exact Eval.follows_mark .doctype
  | noop => rw [eval]; exact .pure ⟨rfl, rfl⟩
  | text value => rw [eval]; exact Eval.follows_mark (.text value)
  | raw value => rw [eval]; exact Eval.follows_mark (.raw value)
  | id value => rw [eval]; exact Eval.follows_mark (.valued .id value)
  | className value => rw [eval]; exact Eval.follows_mark (.valued .className value)
  | attr name value =>
    rw [eval]
    exact (Eval.follows_attributeName name).bind fun name =>
      Eval.follows_mark (.valued name value)
  | boolAttr name =>
    rw [eval]
    exact (Eval.follows_attributeName name).bind fun name => Eval.follows_mark (.boolean name)
  | idAttr name =>
    rw [eval]
    exact (Eval.follows_attributeName name).bind fun name => Eval.follows_nextId.bind fun id =>
      Eval.follows_mark (.valued name id)
  | prepared p =>
    rw [eval]
    exact (Eval.follows_prepared p).bind fun p => Eval.follows_mark (.valued p.name p.value)
  | elementText name value =>
    rw [eval]
    exact (Eval.follows_elementName name).bind fun name =>
      Eval.follows_lift fun h hr => Build.elementText_follows h hr
  | bindElement key name =>
    rw [eval]
    refine (Eval.follows_elementName name).store (fun _ _ => rfl) fun _ _ _ h => ?_
    exact ⟨h.recorder, congrArg (List.cons _) h.elements, h.attributes, h.prepared⟩
  | bindAttribute key name =>
    rw [eval]
    refine (Eval.follows_attributeName name).store (fun _ _ => rfl) fun _ _ _ h => ?_
    exact ⟨h.recorder, h.elements, congrArg (List.cons _) h.attributes, h.prepared⟩
  | bindPrepared key p =>
    rw [eval]
    refine (Eval.follows_prepared p).store (fun _ _ => rfl) fun _ _ _ h => ?_
    exact ⟨h.recorder, h.elements, h.attributes, congrArg (List.cons _) h.prepared⟩
  | noteId =>
    rw [eval]
    exact Eval.follows_nextId.bind fun id => (Eval.follows_note _).bind fun _ => .pure ⟨rfl, rfl⟩
  | noteElement name =>
    rw [eval]
    exact (Eval.follows_noteCode _ (Eval.follows_lookUpElement name)).bind fun _ =>
      .pure ⟨rfl, rfl⟩
  | noteAttribute name =>
    rw [eval]
    exact (Eval.follows_noteCode _ (Eval.follows_lookUpAttribute name)).bind fun _ =>
      .pure ⟨rfl, rfl⟩
  | _ => cases he

/-! ### Arguments -/

theorem follows_element (h : Follows Answered (evalAll args) (evalAll args'))
    (name : ElementName) (attributes : List PreparedAttribute) :
    Follows AnsweredOne
      (evalAll args >>= fun args => liftM (Build.elementWith name attributes args))
      (evalAll args' >>= fun args => liftM (Build.elementWith name attributes args)) := by
  intro s s' u token habreast hs
  obtain ⟨tokens, t, ht, hs⟩ := Eval.of_bind_eq_ok hs
  obtain ⟨r, hr, rfl⟩ := Eval.of_lift_eq_ok hs
  obtain ⟨tokens', t', _, _, ht', hanswered, hadds⟩ := h habreast ht
  obtain ⟨token', r', as, bs, hr', hanswered', hadds'⟩ :=
    Build.elementWith_follows hadds.recorder hanswered hr
  exact ⟨token', _, as, bs, (Eval.run_bind ht' _).trans (Eval.run_lift hr'), hanswered',
    .of_recorder hadds.abreast hadds'⟩

theorem follows_flatten (h : Follows Answered (evalAll args) (evalAll args')) :
    Follows AnsweredOne (flatten args).eval (flatten args').eval := by
  intro s s' u token habreast hs
  rw [eval] at hs
  obtain ⟨tokens, t, ht, hs⟩ := Eval.of_bind_eq_ok hs
  obtain ⟨r, hr, rfl⟩ := Eval.of_lift_eq_ok hs
  obtain ⟨tokens', t', _, _, ht', hanswered, hadds⟩ := h habreast ht
  obtain ⟨token', r', as, bs, hr', hanswered', hadds'⟩ :=
    Build.flatten_follows hadds.recorder hanswered hr
  refine ⟨token', _, as, bs, ?_, hanswered', .of_recorder hadds.abreast hadds'⟩
  rw [eval]
  exact (Eval.run_bind ht' _).trans (Eval.run_lift hr')

/-! ### Fragments of everything -/

/-- The content is evaluated inside of a fragment that is ended then. -/
def Collects (content : List Expr) (s : Evaluation) (token : Token) (u : Evaluation) : Prop :=
  ∃ tokens t o r, evalAll content { s with recorder := s.recorder.beginFragment } = .ok tokens t ∧
    t.recorder.endFragment = .ok (o, r) ∧ token = .entry .fragment o ∧ u = { t with recorder := r }

/-- The content is evaluated inside of a fragment that is aborted then. -/
def Drops (content : List Expr) (failure : String) (s u : Evaluation) : Prop :=
  ∃ tokens t r, evalAll content { s with recorder := s.recorder.beginFragment } = .ok tokens t ∧
    t.recorder.abortFragment = .ok r ∧
    u = { t with recorder := r, notes := t.notes.push (.failed failure) }

/-- What comes after content is run on the fragment that was begun before the content. -/
theorem begun_iff {β γ : Type} (outcome : β) {last : β → Eval γ} {result : γ} :
    ((liftM (Build.act fun r => .ok r.beginFragment) : Eval Unit) >>= fun _ =>
      (evalAll content >>= fun _ => pure outcome) >>= last) s = .ok result u ↔
    ∃ tokens t, evalAll content { s with recorder := s.recorder.beginFragment } = .ok tokens t ∧
      last outcome t = .ok result u := by
  constructor
  · intro h
    obtain ⟨_, _, hbegin, h⟩ := Eval.of_bind_eq_ok h
    obtain ⟨_, t, hcontent, hlast⟩ := Eval.of_bind_eq_ok h
    obtain ⟨_, hr, rfl⟩ := Eval.of_lift_eq_ok hbegin
    cases hr
    obtain ⟨tokens, _, heval, hpure⟩ := Eval.of_bind_eq_ok hcontent
    cases hpure
    exact ⟨tokens, t, heval, hlast⟩
  · rintro ⟨tokens, t, heval, hlast⟩
    have hcontent : (evalAll content >>= fun _ => pure outcome)
        { s with recorder := s.recorder.beginFragment } = .ok outcome t := Eval.run_bind heval _
    exact (Eval.run_bind (Eval.run_beginFragment s) _).trans
      ((Eval.run_bind hcontent _).trans hlast)

theorem run_endFragment_iff {t : Evaluation} :
    (liftM (Build.entry .fragment Recorder.endFragment) : Eval Token) t = .ok token u ↔
      ∃ o r, t.recorder.endFragment = .ok (o, r) ∧ token = .entry .fragment o ∧
        u = { t with recorder := r } := by
  constructor
  · intro h
    obtain ⟨r, hr, rfl⟩ := Eval.of_lift_eq_ok h
    obtain ⟨⟨o, _⟩, hend, he⟩ := of_map_eq_ok hr
    cases he
    exact ⟨o, _, hend, rfl, rfl⟩
  · rintro ⟨o, r, hend, rfl, rfl⟩
    refine Eval.run_lift ?_
    rw [Build.entry, hend]
    rfl

theorem collect_iff : (collect content).eval s = .ok token u ↔ Collects content s token u := by
  rw [eval]
  refine (begun_iff ()).trans ?_
  constructor
  · rintro ⟨tokens, t, heval, hlast⟩
    obtain ⟨o, r, hend⟩ := run_endFragment_iff.1 hlast
    exact ⟨tokens, t, o, r, heval, hend⟩
  · rintro ⟨tokens, t, o, r, heval, hend⟩
    exact ⟨tokens, t, heval, run_endFragment_iff.2 ⟨o, r, hend⟩⟩

theorem attempt_none_iff :
    (attempt content none).eval s = .ok token u ↔ Collects content s token u := by
  rw [eval_attempt]
  constructor
  · intro h
    obtain ⟨_, _, htry, hpure⟩ := Eval.of_bind_eq_ok h
    obtain ⟨tokens, t, heval, hlast⟩ := (begun_iff (Except.ok ())).1 htry
    obtain ⟨_, _, hlast, hresult⟩ := Eval.of_bind_eq_ok hlast
    cases hresult
    cases hpure
    obtain ⟨o, r, hend⟩ := run_endFragment_iff.1 hlast
    exact ⟨tokens, t, o, r, heval, hend⟩
  · rintro ⟨tokens, t, o, r, heval, hend⟩
    have hlast := run_endFragment_iff.2 ⟨o, r, hend⟩
    have htry : Build.tryCollect (outcome content none) s = .ok (.ok token) u :=
      (begun_iff (Except.ok ())).2 ⟨tokens, t, heval, Eval.run_bind hlast _⟩
    exact (Eval.run_bind htry _).trans rfl

theorem attempt_some_iff {failure : String} :
    (attempt content (some failure)).eval s = .ok token u ↔
      token = .noop ∧ Drops content failure s u := by
  rw [eval_attempt]
  constructor
  · intro h
    obtain ⟨_, _, htry, hnote⟩ := Eval.of_bind_eq_ok h
    obtain ⟨tokens, t, heval, hlast⟩ := (begun_iff (Except.error failure)).1 htry
    obtain ⟨_, _, hlast, hresult⟩ := Eval.of_bind_eq_ok hlast
    cases hresult
    cases hnote
    obtain ⟨r, hr, rfl⟩ := Eval.of_lift_eq_ok hlast
    obtain ⟨_, habort, he⟩ := of_map_eq_ok hr
    cases he
    exact ⟨rfl, tokens, t, _, heval, habort, rfl⟩
  · rintro ⟨rfl, tokens, t, r, heval, habort, rfl⟩
    have hlast : (liftM (Build.act Recorder.abortFragment) : Eval Unit) t =
        .ok () { t with recorder := r } := by
      refine Eval.run_lift ?_
      rw [Build.act, habort]
      rfl
    have htry : Build.tryCollect (outcome content (some failure)) s =
        .ok (.error failure) { t with recorder := r } :=
      (begun_iff (Except.error failure)).2 ⟨tokens, t, heval, Eval.run_bind hlast _⟩
    exact (Eval.run_bind htry _).trans rfl

theorem follows_inside (h : Follows Answered (evalAll content) (evalAll content'))
    (habreast : s.Abreast s') {tokens : List Token} {t : Evaluation}
    (ht : evalAll content { s with recorder := s.recorder.beginFragment } = .ok tokens t) :
    ∃ tokens' t' as bs,
      evalAll content' { s' with recorder := s'.recorder.beginFragment } = .ok tokens' t' ∧
      s.recorder.beginFragment.AddsBoth s'.recorder.beginFragment t.recorder t'.recorder as bs ∧
      t.Abreast t' := by
  have hbegin : Evaluation.Abreast { s with recorder := s.recorder.beginFragment }
      { s' with recorder := s'.recorder.beginFragment } :=
    ⟨habreast.recorder.beginFragment, habreast.elements, habreast.attributes, habreast.prepared⟩
  obtain ⟨tokens', t', as, bs, ht', _, hadds⟩ := h hbegin ht
  exact ⟨tokens', t', as, bs, ht', hadds.recorder, hadds.abreast⟩

theorem Collects.follows (h : Follows Answered (evalAll content) (evalAll content'))
    (habreast : s.Abreast s') (hs : Collects content s token u) :
    ∃ token' u' as bs, Collects content' s' token' u' ∧ AnsweredOne token token' as bs ∧
      s.AddsBoth s' u u' as bs := by
  obtain ⟨tokens, t, o, r, ht, hend, rfl, rfl⟩ := hs
  obtain ⟨tokens', t', as, bs, ht', hinside, ht⟩ := follows_inside h habreast ht
  obtain ⟨o', r', hend', hadds⟩ := Recorder.AddsBoth.endFragment habreast.recorder hinside hend
  exact ⟨_, _, [o], [o'], ⟨tokens', t', o', r', ht', hend', rfl, rfl⟩, ⟨rfl, rfl⟩,
    .of_recorder ht hadds⟩

theorem Drops.follows {failure : String} (h : Follows Answered (evalAll content) (evalAll content'))
    (habreast : s.Abreast s') (hs : Drops content failure s u) :
    ∃ u', Drops content' failure s' u' ∧ s.AddsBoth s' u u' [] [] := by
  obtain ⟨tokens, t, r, ht, habort, rfl⟩ := hs
  obtain ⟨tokens', t', as, bs, ht', hinside, ht⟩ := follows_inside h habreast ht
  obtain ⟨r', habort', hadds⟩ :=
    Recorder.AddsBoth.abortFragment habreast.recorder hinside habort
  exact ⟨_, ⟨tokens', t', r', ht', habort', rfl⟩, hadds, hadds.abreast, ht.elements,
    ht.attributes, ht.prepared⟩

theorem follows_collect (h : Follows Answered (evalAll content) (evalAll content')) :
    Follows AnsweredOne (collect content).eval (collect content').eval := by
  intro s s' u token habreast hs
  rw [collect_iff] at hs
  obtain ⟨token', u', as, bs, hs', hadds⟩ := hs.follows h habreast
  exact ⟨token', u', as, bs, collect_iff.2 hs', hadds⟩

theorem follows_attempt (h : Follows Answered (evalAll content) (evalAll content'))
    (failure : Option String) :
    Follows AnsweredOne (attempt content failure).eval (attempt content' failure).eval := by
  intro s s' u token habreast hs
  cases failure with
  | none =>
    rw [attempt_none_iff] at hs
    obtain ⟨token', u', as, bs, hs', hadds⟩ := hs.follows h habreast
    exact ⟨token', u', as, bs, attempt_none_iff.2 hs', hadds⟩
  | some failure =>
    obtain ⟨rfl, hdrops⟩ := attempt_some_iff.1 hs
    obtain ⟨u', hs', hadds⟩ := hdrops.follows h habreast
    exact ⟨.noop, u', [], [], attempt_some_iff.2 ⟨rfl, hs'⟩, ⟨rfl, rfl⟩, hadds⟩

/-! ### Rows of expressions -/

theorem evalAll_append {t : Evaluation} {tokens tokens' : List Token} (as : List Expr)
    {bs : List Expr} (h : evalAll as s = .ok tokens t) (h' : evalAll bs t = .ok tokens' u) :
    evalAll (as ++ bs) s = .ok (tokens ++ tokens') u := by
  induction as generalizing s tokens with
  | nil =>
    rw [evalAll] at h
    cases h
    exact h'
  | cons e as ih =>
    rw [evalAll] at h
    obtain ⟨token, t', he, h⟩ := Eval.of_bind_eq_ok h
    obtain ⟨rest, _, has, hpure⟩ := Eval.of_bind_eq_ok h
    cases hpure
    rw [List.cons_append, evalAll]
    exact (Eval.run_bind he _).trans ((Eval.run_bind (ih has) _).trans rfl)

theorem follows_cons (h : Follows AnsweredOne e.eval e'.eval)
    (h' : Follows Answered (evalAll es) (evalAll es')) :
    Follows Answered (evalAll (e :: es)) (evalAll (e' :: es')) := by
  intro s s' u tokens habreast hs
  rw [evalAll] at hs
  obtain ⟨token, t, ht, hs⟩ := Eval.of_bind_eq_ok hs
  obtain ⟨rest, _, hrest, hpure⟩ := Eval.of_bind_eq_ok hs
  cases hpure
  obtain ⟨token', t', as, bs, ht', hanswered, hadds⟩ := h habreast ht
  obtain ⟨rest', u', cs, ds, hrest', hanswered', hadds'⟩ := h' hadds.abreast hrest
  refine ⟨token' :: rest', u', _, _, ?_, Answered.append hanswered hanswered', hadds.trans hadds'⟩
  rw [evalAll]
  exact (Eval.run_bind ht' _).trans ((Eval.run_bind hrest' _).trans rfl)

/-- **Arguments in the place of their fragment** record the same but for the fragment. -/
theorem follows_inline (h : Follows Answered (evalAll args) (evalAll args'))
    (h' : Follows Answered (evalAll es) (evalAll es')) :
    Follows Answered (evalAll (flatten args :: es)) (evalAll (args' ++ es')) := by
  intro s s' u tokens habreast hs
  rw [evalAll, eval] at hs
  obtain ⟨token, t, ht, hs⟩ := Eval.of_bind_eq_ok hs
  obtain ⟨rest, _, hrest, hpure⟩ := Eval.of_bind_eq_ok hs
  cases hpure
  obtain ⟨inner, v, hinner, hflatten⟩ := Eval.of_bind_eq_ok ht
  obtain ⟨r, hr, rfl⟩ := Eval.of_lift_eq_ok hflatten
  obtain ⟨⟨o, _⟩, hfragment, he⟩ := of_map_eq_ok hr
  cases he
  obtain ⟨inner', v', as, bs, hinner', hanswered, hadds⟩ := h habreast hinner
  have hleft := hadds.recorder.flatten_left hanswered.1 hfragment
  have hflat : s.AddsBoth s' _ v' [o] bs := .of_recorder hadds.abreast hleft
  obtain ⟨rest', u', cs, ds, hrest', hanswered', hadds'⟩ := h' hflat.abreast hrest
  have hone : Answered [.entry .fragment o] inner' [o] bs := ⟨rfl, hanswered.2⟩
  exact ⟨inner' ++ rest', u', _, _, evalAll_append args' hinner' hrest', hone.append hanswered',
    hflat.trans hadds'⟩

/-- **Evaluating expressions in which fragments are left out** records the same but for them. -/
theorem Inlines.follows (h : Inlines es es') : Follows Answered (evalAll es) (evalAll es') := by
  induction h with
  | nil =>
    rw [evalAll]
    exact .pure ⟨rfl, rfl⟩
  | simple e he _ ih => exact follows_cons (follows_simple e he) ih
  | element name _ _ inside rest =>
    refine follows_cons ?_ rest
    rw [eval, eval]
    exact (Eval.follows_elementName name).bind fun name => follows_element inside name []
  | elementWith name attributes _ _ inside rest =>
    refine follows_cons ?_ rest
    rw [eval, eval]
    exact (Eval.follows_elementName name).bind fun name =>
      (Follows.mapM Eval.follows_prepared attributes).bind fun attributes =>
        follows_element inside name attributes
  | flatten _ _ inside rest => exact follows_cons (follows_flatten inside) rest
  | collect _ _ inside rest => exact follows_cons (follows_collect inside) rest
  | attempt failure _ _ inside rest => exact follows_cons (follows_attempt inside failure) rest
  | inline _ _ inside rest => exact follows_inline inside rest

/-! ### Documents -/

/-- A course without a fault is an evaluation of all expressions. -/
theorem evalAll_of_course (h : (course s es).fault = none) :
    evalAll es s = .ok (course s es).tokens (course s es).state := by
  induction es generalizing s with
  | nil =>
    rw [course, evalAll]
    rfl
  | cons e es ih =>
    rw [course] at h ⊢
    cases he : e.eval s with
    | error fault t =>
      rw [he] at h
      cases h
    | ok token t =>
      rw [he] at h
      rw [evalAll]
      exact (Eval.run_bind he _).trans ((Eval.run_bind (ih h) _).trans rfl)

theorem course_of_evalAll {tokens : List Token} (h : evalAll es s = .ok tokens u) :
    course s es = ⟨tokens, none, u⟩ := by
  induction es generalizing s tokens with
  | nil =>
    rw [evalAll] at h
    cases h
    rfl
  | cons e es ih =>
    rw [evalAll] at h
    obtain ⟨token, t, he, h⟩ := Eval.of_bind_eq_ok h
    obtain ⟨rest, _, hrest, hpure⟩ := Eval.of_bind_eq_ok h
    cases hpure
    rw [course, he]
    simp only [ih hrest]

theorem document_iff {t : Recording} : document es = .ok t ↔ ∃ tokens u r,
    evalAll es Evaluation.new = .ok tokens u ∧ u.recorder.finish = .ok (t, r) := by
  rw [document]
  constructor
  · intro h
    rw [Course.document] at h
    split at h
    · cases h
    · rename_i hfault
      obtain ⟨⟨_, r⟩, hfinish, rfl⟩ := of_map_eq_ok h
      exact ⟨_, _, r, evalAll_of_course hfault, hfinish⟩
  · rintro ⟨tokens, u, r, hu, hfinish⟩
    rw [course_of_evalAll hu]
    show u.recorder.finish.map _ = _
    rw [hfinish]
    rfl

theorem Inlines.document (h : Inlines es es') {t : Recording} (ht : Expr.document es = .ok t) :
    ∃ (t' : Recording) (d : Document), Expr.document es' = .ok t' ∧ t.compile = .ok d ∧
      t'.compile = .ok d := by
  have hnew : Recorder.new.Abreast Recorder.new :=
    ⟨⟨_, Recorder.mirrors_new⟩, ⟨_, Recorder.mirrors_new⟩, rfl, rfl, rfl⟩
  have habreast : Evaluation.new.Abreast Evaluation.new := ⟨hnew, rfl, rfl, rfl⟩
  obtain ⟨tokens, u, r, hu, hfinish⟩ := document_iff.1 ht
  obtain ⟨tokens', u', as, bs, hu', _, hadds⟩ := h.follows habreast hu
  obtain ⟨t', r', d, hfinish', hcompile⟩ := Recorder.AddsBoth.finish hadds.recorder hfinish
  exact ⟨t', d, document_iff.2 ⟨tokens', u', r', hu', hfinish'⟩, hcompile⟩

end Expr

/-- **Fragments are transparent.**  Where a document is recorded by calls in its own order, all
calls that begin and end fragments may be left out, however they are placed.  Where it is recorded
by nested expressions, arguments may be put in the place of their fragment, at any depth.  The
document is accepted as before, and it is the same document. -/
theorem Recording.fragments_transparent :
    (∀ (calls : List SpelledCall) (t : Recording), (∀ call ∈ calls, call.isInOrder) →
      t.MadeBy calls → ∃ (t' : Recording) (d : Document),
        t'.MadeBy (calls.filter (!·.isBracket)) ∧ t.compile = .ok d ∧ t'.compile = .ok d) ∧
    ∀ (es es' : List Expr) (t : Recording), Expr.Inlines es es' → Expr.document es = .ok t →
      ∃ (t' : Recording) (d : Document),
        Expr.document es' = .ok t' ∧ t.compile = .ok d ∧ t'.compile = .ok d := by
  constructor
  · intro calls t horder hmade
    exact hmade.unwrapped horder
  · intro es es' t hinlines ht
    exact hinlines.document ht

/-- An element with fragments inside of one another, around an attribute and a text, and with an
empty one. -/
def Recording.bracketedCalls : List SpelledCall :=
  [.beginFragment, .doctype, .endFragment, .openElement (.spelled "x-card"), .beginFragment,
    .valued (.spelled "class") "a", .beginFragment, .text "b", .beginFragment, .endFragment,
    .endFragment, .endFragment, .boolean (.spelled "hidden"), .closeElement]

/-- The same by expressions, with a fragment of everything that is recorded in it. -/
def Expr.bracketed : List Expr :=
  [.flatten [.doctype], .element (.spelled "x-card") [.flatten [.attr (.spelled "class") "a",
    .flatten [.text "b", .flatten []]], .collect [.flatten [.boolAttr (.spelled "hidden")]]]]

/-- The same expressions without `flatten`. -/
def Expr.unbracketed : List Expr :=
  [.doctype, .element (.spelled "x-card") [.attr (.spelled "class") "a", .text "b",
    .collect [.boolAttr (.spelled "hidden")]]]

theorem Expr.inlines_unbracketed : Inlines bracketed unbracketed := by
  have htext : Inlines [.flatten [.text "b", .flatten []]] [.text "b"] :=
    .inline (.simple _ rfl (.inline .nil .nil)) .nil
  have hattr : Inlines [.flatten [.attr (.spelled "class") "a", .flatten [.text "b", .flatten []]],
      .collect [.flatten [.boolAttr (.spelled "hidden")]]]
      [.attr (.spelled "class") "a", .text "b", .collect [.boolAttr (.spelled "hidden")]] :=
    .inline (.simple _ rfl htext) (.collect (.inline (.simple _ rfl .nil) .nil) .nil)
  exact .inline (.simple _ rfl .nil) (.element _ hattr .nil)

theorem Recording.bracketed_transparent : ∃ t u : Recording, t.MadeBy bracketedCalls ∧
    Expr.document Expr.bracketed = .ok u ∧
    (∃ (t' : Recording) (d : Document), t'.MadeBy (bracketedCalls.filter (!·.isBracket)) ∧
      t.compile = .ok d ∧ t'.compile = .ok d) ∧
    ∃ (u' : Recording) (d : Document), Expr.document Expr.unbracketed = .ok u' ∧
      u.compile = .ok d ∧ u'.compile = .ok d := by
  have hcalls : (ofCalls? bracketedCalls).isSome := by decide +kernel
  have hexprs : (Expr.document Expr.bracketed).toOption.isSome := by decide +kernel
  obtain ⟨t, ht⟩ := Option.isSome_iff_exists.1 hcalls
  have hmade : t.MadeBy bracketedCalls := madeBy_iff.2 ht
  have horder : ∀ call ∈ bracketedCalls, call.isInOrder := by decide
  cases hu : Expr.document Expr.bracketed with
  | error fault => rw [hu] at hexprs; cases hexprs
  | ok u =>
    exact ⟨t, u, hmade, rfl, fragments_transparent.1 _ t horder hmade,
      fragments_transparent.2 _ _ u Expr.inlines_unbracketed hu⟩

end HtmlTape
