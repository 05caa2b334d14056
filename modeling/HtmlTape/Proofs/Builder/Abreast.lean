import HtmlTape.Proofs.Builder.Attempt
import HtmlTape.Proofs.Builder.Styles
import HtmlTape.Proofs.Recorder.Abreast

/-!
# Evaluations abreast

Two evaluations are abreast if their recorders are and if the same names and attributes are stored
in them.  One step follows another if it succeeds wherever the other one does, and adds the same but
for fragments (`Eval.Follows`).  Looking up names, noting things down and recording leaves are steps
that follow themselves; and an element or a fragment of arguments follows one of other arguments
that have just been added with them.
-/

namespace HtmlTape

/-! ### Evaluations abreast -/

namespace Evaluation

/-- The recorders are abreast, and the same names and attributes are stored. -/
structure Abreast (s s' : Evaluation) : Prop where
  recorder : s.recorder.Abreast s'.recorder
  elements : s'.elements = s.elements
  attributes : s'.attributes = s.attributes
  prepared : s'.prepared = s.prepared

/-- Between `s` and `t`, and between `s'` and `t'`, entries were added that are the same but for
fragments; the evaluations stay abreast. -/
structure AddsBoth (s s' t t' : Evaluation) (as bs : List Nat) : Prop where
  recorder : s.recorder.AddsBoth s'.recorder t.recorder t'.recorder as bs
  abreast : t.Abreast t'

variable {s s' t t' u u' : Evaluation} {as bs cs ds : List Nat}

theorem AddsBoth.refl (h : s.Abreast s') : s.AddsBoth s' s s' [] [] :=
  ⟨.refl h.recorder, h⟩

theorem AddsBoth.trans (h : s.AddsBoth s' t t' as bs) (h' : t.AddsBoth t' u u' cs ds) :
    s.AddsBoth s' u u' (as ++ cs) (bs ++ ds) :=
  ⟨h.recorder.trans h'.recorder, h'.abreast⟩

theorem AddsBoth.of_recorder {r r' : Recorder} (h : t.Abreast t')
    (hr : s.recorder.AddsBoth s'.recorder r r' as bs) :
    s.AddsBoth s' { t with recorder := r } { t' with recorder := r' } as bs :=
  ⟨hr, hr.abreast, h.elements, h.attributes, h.prepared⟩

end Evaluation

/-! ### Steps side by side -/

namespace Eval

variable {α β γ δ : Type} {s s' t : Evaluation}

theorem run_bind {x : Eval α} {a : α} (h : x s = .ok a t) (f : α → Eval β) :
    (x >>= f) s = f a t := by
  show EStateM.bind x f s = _
  rw [EStateM.bind, h]

theorem run_lift {x : Build α} {a : α} {r : Recorder} (h : x s.recorder = .ok (a, r)) :
    (liftM x : Eval α) s = .ok a { s with recorder := r } := by
  simp only [liftM, monadLift, MonadLift.monadLift]
  rw [h]

theorem run_beginFragment (s : Evaluation) :
    (liftM (Build.act fun r => .ok r.beginFragment) : Eval Unit) s =
      .ok () { s with recorder := s.recorder.beginFragment } :=
  run_lift rfl

/-- Where the first step succeeds, so does the second one, from a state abreast of the first one.
Both add the same but for fragments, and what they answer is related to where it stands. -/
def Follows (rel : α → β → List Nat → List Nat → Prop) (x : Eval α) (y : Eval β) : Prop :=
  ∀ ⦃s s' t : Evaluation⦄ ⦃a : α⦄, s.Abreast s' → x s = .ok a t →
    ∃ b t' as bs, y s' = .ok b t' ∧ rel a b as bs ∧ s.AddsBoth s' t t' as bs

/-- The answers are the same, and nothing was recorded. -/
def Same (a b : α) (as bs : List Nat) : Prop := b = a ∧ as = [] ∧ bs = []

/-- The answers are the tokens of what was recorded. -/
def Answered (args args' : List Token) (as bs : List Nat) : Prop :=
  args.filterMap Token.record? = as ∧ args'.filterMap Token.record? = bs

theorem Answered.append {as as' bs bs' : List Token} {p q p' q' : List Nat}
    (h : Answered as bs p q) (h' : Answered as' bs' p' q') :
    Answered (as ++ as') (bs ++ bs') (p ++ p') (q ++ q') := by
  rw [Answered, List.filterMap_append, List.filterMap_append, h.1, h.2, h'.1, h'.2]
  exact ⟨rfl, rfl⟩

/-- The answer is the token of what was recorded. -/
def AnsweredOne (token token' : Token) (as bs : List Nat) : Prop :=
  Answered [token] [token'] as bs

variable {rel : γ → δ → List Nat → List Nat → Prop}

theorem Follows.pure {a : γ} {b : δ} (h : rel a b [] []) :
    Follows rel (Pure.pure a) (Pure.pure b) := by
  intro s s' t c habreast hs
  cases hs
  exact ⟨b, s', [], [], rfl, h, .refl habreast⟩

theorem Follows.bind {x : Eval α} {f : α → Eval γ} {g : α → Eval δ} (hx : Follows Same x x)
    (hf : ∀ a, Follows rel (f a) (g a)) : Follows rel (x >>= f) (x >>= g) := by
  intro s s' u c habreast hs
  obtain ⟨a, t, ht, hs⟩ := of_bind_eq_ok hs
  obtain ⟨b, t', _, _, ht', ⟨rfl, rfl, rfl⟩, hadds⟩ := hx habreast ht
  obtain ⟨d, u', as, bs, hu', hrel, hadds'⟩ := hf b hadds.abreast hs
  exact ⟨d, u', as, bs, (run_bind ht' g).trans hu', hrel, hadds.trans hadds'⟩

theorem Follows.mapM {f : α → Eval β} (hf : ∀ a, Follows Same (f a) (f a)) (as : List α) :
    Follows Same (as.mapM f) (as.mapM f) := by
  induction as with
  | nil =>
    rw [List.mapM_nil]
    exact .pure ⟨rfl, rfl, rfl⟩
  | cons a as ih =>
    rw [List.mapM_cons]
    exact (hf a).bind fun b => ih.bind fun bs => .pure ⟨rfl, rfl, rfl⟩

theorem follows_modify {f : Evaluation → Evaluation} (hr : ∀ s, (f s).recorder = s.recorder)
    (h : ∀ s s', s.Abreast s' → (f s).Abreast (f s')) : Follows Same (modify f) (modify f) := by
  intro s s' t a habreast hs
  cases hs
  refine ⟨(), f s', [], [], rfl, ⟨rfl, rfl, rfl⟩, ?_, h s s' habreast⟩
  rw [hr, hr]
  exact .refl habreast.recorder

theorem Follows.store {x : Eval α} (hx : Follows Same x x) {f : α → Evaluation → Evaluation}
    (hr : ∀ a s, (f a s).recorder = s.recorder)
    (h : ∀ a s s', s.Abreast s' → (f a s).Abreast (f a s')) :
    Follows AnsweredOne (x >>= fun a => modify (f a) >>= fun _ => Pure.pure Token.noop)
      (x >>= fun a => modify (f a) >>= fun _ => Pure.pure Token.noop) :=
  hx.bind fun a => (follows_modify (hr a) (h a)).bind fun _ => .pure ⟨rfl, rfl⟩

theorem follows_note (n : Note) : Follows Same (note n) (note n) :=
  follows_modify (fun _ => rfl) fun _ _ h => ⟨h.recorder, h.elements, h.attributes, h.prepared⟩

/-! ### Names -/

theorem follows_stored (table : Evaluation → List (String × α)) (key : String)
    (h : ∀ s s', s.Abreast s' → table s' = table s) :
    Follows Same (stored table key) (stored table key) := by
  intro s s' t a habreast hs
  obtain ⟨_, u, hget, hs⟩ := of_bind_eq_ok hs
  cases hget
  cases hlookup : (table s).lookup key with
  | none =>
    rw [hlookup] at hs
    cases hs
  | some b =>
    rw [hlookup] at hs
    cases hs
    refine ⟨a, s', [], [], ?_, ⟨rfl, rfl, rfl⟩, .refl habreast⟩
    refine (run_bind (x := get) (t := s') rfl _).trans ?_
    rw [h s s' habreast, hlookup]
    rfl

theorem follows_lookUp {intern : Recorder → String → Except NameError (α × Recorder)}
    {name : String} (find : Names → Except NameError (α × Names))
    (hintern : ∀ r, intern r name = (find r.names).map fun p => (p.1, { r with names := p.2 }))
    (hext : ∀ names p, find names = .ok p → names.Extends p.2) :
    Follows Same (liftM (Build.lookUp intern name)) (liftM (Build.lookUp intern name)) := by
  intro s s' t a habreast hs
  obtain ⟨r, hr, rfl⟩ := of_lift_eq_ok hs
  have hnames := habreast.recorder.names
  rw [Build.lookUp, hintern] at hr
  cases hfind : find s.recorder.names with
  | error e =>
    rw [hfind] at hr
    cases hr
    refine ⟨.error e, s', [], [], run_lift ?_, ⟨rfl, rfl, rfl⟩, .refl habreast⟩
    rw [Build.lookUp, hintern, hnames, hfind]
    rfl
  | ok p =>
    rw [hfind] at hr
    cases hr
    refine ⟨.ok p.1, _, [], [], run_lift (r := { s'.recorder with names := p.2 }) ?_,
      ⟨rfl, rfl, rfl⟩, .of_recorder habreast (.of_levels habreast.recorder (hext _ _ hfind) rfl
        habreast.recorder.ids ⟨rfl, rfl⟩ ⟨rfl, rfl⟩)⟩
    rw [Build.lookUp, hintern, hnames, hfind]
    rfl

theorem follows_lookUpElement (name : String) :
    Follows Same (liftM (Build.lookUp Recorder.internElement name))
      (liftM (Build.lookUp Recorder.internElement name)) :=
  follows_lookUp (·.internElement name) (fun _ => rfl) fun _ _ h => Names.extends_internElement h

theorem follows_lookUpAttribute (name : String) :
    Follows Same (liftM (Build.lookUp Recorder.internAttribute name))
      (liftM (Build.lookUp Recorder.internAttribute name)) :=
  follows_lookUp (·.internAttribute name) (fun _ => rfl) fun _ _ h =>
    Names.extends_internAttribute h

theorem follows_require {intern : Recorder → String → Except NameError (α × Recorder)}
    {name : String} (h : Follows Same (liftM (Build.lookUp intern name))
      (liftM (Build.lookUp intern name))) :
    Follows Same (liftM (Build.require intern name)) (liftM (Build.require intern name)) := by
  intro s s' t a habreast hs
  obtain ⟨r, hr, rfl⟩ := of_lift_eq_ok hs
  obtain ⟨⟨_, q⟩, hfound, hr⟩ := HtmlTape.of_bind_eq_ok hr
  obtain ⟨result, t', _, _, ht', ⟨rfl, rfl, rfl⟩, hadds⟩ := h habreast (run_lift hfound)
  obtain ⟨q', hq', rfl⟩ := of_lift_eq_ok ht'
  cases result with
  | error e => cases hr
  | ok code =>
    cases hr
    refine ⟨_, _, [], [], run_lift (r := q') ?_, ⟨rfl, rfl, rfl⟩, hadds⟩
    show (Build.lookUp intern name s'.recorder >>= _) = _
    rw [hq']
    rfl

theorem follows_elementName (name : NameExpr) :
    Follows Same (elementName name) (elementName name) := by
  cases name with
  | spelled name => exact follows_require (follows_lookUpElement name)
  | stored key => exact follows_stored _ key fun _ _ h => h.elements

theorem follows_attributeName (name : NameExpr) :
    Follows Same (attributeName name) (attributeName name) := by
  cases name with
  | spelled name => exact follows_require (follows_lookUpAttribute name)
  | stored key => exact follows_stored _ key fun _ _ h => h.attributes

theorem follows_prepared (p : PreparedExpr) : Follows Same (prepared p) (prepared p) := by
  cases p with
  | id value => exact .pure ⟨rfl, rfl, rfl⟩
  | className value => exact .pure ⟨rfl, rfl, rfl⟩
  | named name value =>
    exact (follows_attributeName name).bind fun _ => .pure ⟨rfl, rfl, rfl⟩
  | stored key => exact follows_stored _ key fun _ _ h => h.prepared

theorem follows_noteCode (code : α → Nat) {lookUp : Build (Except NameError α)}
    (h : Follows Same (liftM lookUp) (liftM lookUp)) :
    Follows Same (noteCode code lookUp) (noteCode code lookUp) := by
  refine h.bind fun result => ?_
  cases result with
  | ok name => exact follows_note _
  | error e => exact follows_note _

theorem follows_nextId : Follows Same (liftM Build.nextId) (liftM Build.nextId) := by
  intro s s' t id habreast hs
  obtain ⟨r, hr, rfl⟩ := of_lift_eq_ok hs
  cases hr
  refine ⟨_, _, [], [], run_lift (r := s'.recorder.nextId.2) rfl, ⟨?_, rfl, rfl⟩,
    .of_recorder habreast (.of_levels habreast.recorder (.refl _) habreast.recorder.names ?_
      ⟨rfl, rfl⟩ ⟨rfl, rfl⟩)⟩
  · exact congrArg (fun ids => s!"html-{ids + 1}") habreast.recorder.ids
  · show s'.recorder.ids + 1 = s.recorder.ids + 1
    rw [habreast.recorder.ids]

/-! ### What is recorded -/

theorem follows_lift {x y : Build Token}
    (h : ∀ {r r' q : Recorder} {token : Token}, r.Abreast r' → x r = .ok (token, q) →
      ∃ token' q' as bs, y r' = .ok (token', q') ∧ AnsweredOne token token' as bs ∧
        r.AddsBoth r' q q' as bs) : Follows AnsweredOne (liftM x) (liftM y) := by
  intro s s' t token habreast hs
  obtain ⟨r, hr, rfl⟩ := of_lift_eq_ok hs
  obtain ⟨token', q', as, bs, hy, hanswered, hadds⟩ := h habreast.recorder hr
  exact ⟨token', _, as, bs, run_lift hy, hanswered, .of_recorder habreast hadds⟩

theorem follows_mark (mark : Mark String) :
    Follows AnsweredOne (liftM mark.build) (liftM mark.build) := by
  refine follows_lift fun {r r' q token} habreast hr => ?_
  obtain ⟨kind, hkind⟩ := Recorder.build_mark r mark
  obtain ⟨kind', hkind'⟩ := Recorder.build_mark r' mark
  rw [hkind] at hr
  obtain ⟨⟨o, _⟩, hmark, he⟩ := of_map_eq_ok hr
  cases he
  obtain ⟨o', q', hr', hadds⟩ := Recorder.AddsBoth.recordMark habreast mark hmark
  refine ⟨.entry kind' o', q', _, _, ?_, ⟨rfl, rfl⟩, hadds⟩
  rw [hkind', hr']
  rfl

end Eval

namespace Build

variable {r r' q q' u : Recorder} {as bs : List Nat} {args args' : List Token} {token : Token}

/-- An element is granted the arguments that both recorders have just recorded. -/
theorem elementWith_follows (h : r.AddsBoth r' q q' as bs) (hargs : Eval.Answered args args' as bs)
    {name : ElementName} {attributes : List PreparedAttribute}
    (hr : elementWith name attributes args q = .ok (token, u)) :
    ∃ token' u' as bs, elementWith name attributes args' q' = .ok (token', u') ∧
      Eval.AnsweredOne token token' as bs ∧ r.AddsBoth r' u u' as bs := by
  obtain ⟨⟨_, v⟩, hopen, hr⟩ := of_bind_eq_ok hr
  obtain ⟨v, hopen, he⟩ := of_map_eq_ok hopen
  cases he
  obtain ⟨⟨o, _⟩, hclose, he⟩ := of_map_eq_ok hr
  cases he
  obtain ⟨v', o', u', hopen', hclose', hadds⟩ := h.elementWith hargs.1 hargs.2 hopen hclose
  refine ⟨.entry .element o', u', _, _, ?_, ⟨rfl, rfl⟩, hadds⟩
  show (Except.map _ (q'.openElementWith name attributes args') >>= _) = _
  rw [hopen']
  show Except.map _ v'.closeElement = _
  rw [hclose']
  rfl

/-- A fragment of the arguments that both recorders have just recorded. -/
theorem flatten_follows (h : r.AddsBoth r' q q' as bs) (hargs : Eval.Answered args args' as bs)
    (hr : flatten args q = .ok (token, u)) :
    ∃ token' u' as bs, flatten args' q' = .ok (token', u') ∧
      Eval.AnsweredOne token token' as bs ∧ r.AddsBoth r' u u' as bs := by
  obtain ⟨⟨o, _⟩, hfragment, he⟩ := of_map_eq_ok hr
  cases he
  obtain ⟨o', u', hfragment', hadds⟩ := h.flatten hargs.1 hargs.2 hfragment
  refine ⟨.entry .fragment o', u', _, _, ?_, ⟨rfl, rfl⟩, hadds⟩
  show Except.map _ (q'.fragment args') = _
  rw [hfragment']
  rfl

theorem elementText_follows (h : r.Abreast r') {name : ElementName} {value : String}
    (hr : elementText name value r = .ok (token, u)) :
    ∃ token' u' as bs, elementText name value r' = .ok (token', u') ∧
      Eval.AnsweredOne token token' as bs ∧ r.AddsBoth r' u u' as bs := by
  have hchild : r.recordMark (.text value) = .ok (r.text value) := rfl
  obtain ⟨o', q', hchild', hadds⟩ := Recorder.AddsBoth.recordMark h (.text value) hchild
  cases hchild'
  have helement : element name [.entry .text (r.text value).1] (r.text value).2 =
      .ok (token, u) := hr
  exact elementWith_follows hadds ⟨rfl, rfl⟩ helement

end Build

end HtmlTape
