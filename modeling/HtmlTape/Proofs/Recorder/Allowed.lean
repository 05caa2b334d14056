import HtmlTape.Proofs.Draft.Allowed
import HtmlTape.Proofs.Recorder.Claims
import HtmlTape.Proofs.Recorder.Traceless

/-!
# What recorders grant

Whether a recorder grants a call is a matter of the draft that it mirrors, but for the offsets in
the tokens of arguments (`Recorder.Mirrors.step_ok_iff`): the draft has to allow the call, and the
arguments have to be the last entries of the innermost level (`Recorder.Places`).

So a course that a draft takes is a course of every recorder that mirrors the draft, once the
offsets in it are those of the recorder (`Recorder.Mirrors.exists_requestEach`).  Recorders that
mirror the same draft make the same documents (`Recorder.SameDraft.sameDocuments`), whatever words
they have written so far.
-/

namespace HtmlTape

variable {E A : Type}

/-! ### What a recorder grants -/

namespace Recorder

/-- The arguments of the call are the last entries of the innermost level. -/
def Places (r : Recorder) (call : Call E A) : Prop :=
  call.args.filterMap Token.record? = (r.current.entries.toList.map Entry.record).drop
    (r.current.entries.toList.length - Draft.claimed call.args)

def place (r : Recorder) (call : Call E A) : Call E A :=
  call.mapArgs (Token.placeAll ((r.current.entries.toList.map Entry.record).drop
    (r.current.entries.toList.length - Draft.claimed call.args)))

variable {r r' : Recorder} {m : Draft Quote}

theorem unplaced_place (r : Recorder) (call : Call E A) :
    (r.place call).unplaced = call.unplaced :=
  call.unplaced_mapArgs fun args => Token.unplaced_placeAll args _

theorem places_of_args_eq_nil (r : Recorder) {call : Call E A} (h : call.args = []) :
    r.Places call := by
  have hlength : (r.current.entries.toList.map Entry.record).length ≤
      r.current.entries.toList.length := Nat.le_of_eq (List.length_map _)
  rw [Places, h]
  exact (List.drop_eq_nil_of_le hlength).symm

theorem places_place (r : Recorder) {call : Call E A}
    (h : Draft.claimed call.args ≤ r.current.entries.size) : r.Places (r.place call) := by
  have hsame : Draft.claimed (r.place call).args = Draft.claimed call.args := by
    rw [← Call.claimed_args_unplaced, unplaced_place, Call.claimed_args_unplaced]
  rw [Places, hsame, place, Call.args_mapArgs]
  · refine Token.filterMap_placeAll _ _ ?_
    rw [List.length_drop, List.length_map, Array.length_toList]
    omega
  · cases hrecords : (r.current.entries.toList.map Entry.record).drop
      (r.current.entries.toList.length - Draft.claimed call.args) <;> rfl

/-- What is granted is granted whatever is made of the result. -/
theorem exists_map_eq_ok {α β : Type} {x : Except Fault α} {f : α → β} :
    (∃ b, x.map f = .ok b) ↔ ∃ a, x = .ok a := by
  cases x with
  | error fault => exact ⟨(nomatch ·), (nomatch ·)⟩
  | ok a => exact ⟨fun _ => ⟨a, rfl⟩, fun _ => ⟨f a, rfl⟩⟩

theorem exists_attributeText_iff {α : Type} (names : Names) (name : AttributeName)
    (f : String → α) : (∃ a, (names.attributeText name >>= fun text => Except.ok (f text)) = .ok a) ↔
      (names.attributeText? name).isSome := by
  constructor
  · rintro ⟨a, h⟩
    obtain ⟨_, htext, _⟩ := of_bind_eq_ok h
    exact Names.isSome_of_attributeText htext
  · intro h
    rw [Names.attributeText_eq h]
    exact ⟨_, rfl⟩

theorem exists_enterElement_iff (r : Recorder) (name : ElementName) (level : Level)
    (entries : Array Entry) : (∃ r', r.enterElement name level entries = .ok r') ↔
      (r.names.elementText? name).isSome := by
  constructor
  · rintro ⟨r', h⟩
    obtain ⟨_, htext, _⟩ := of_bind_eq_ok h
    exact Names.isSome_of_elementText htext
  · intro h
    rw [enterElement, Names.elementText_eq h]
    exact ⟨_, rfl⟩

theorem exists_adopt_iff (r : Recorder) (name : ElementName) (count : Nat) :
    (∃ r', r.adopt name count = .ok r') ↔
      count ≤ r.current.entries.size ∧ (r.names.elementText? name).isSome := by
  constructor
  · rintro ⟨r', h⟩
    obtain ⟨hcount, hname, _⟩ := adopt_eq_ok h
    exact ⟨hcount, hname⟩
  · rintro ⟨hcount, hname⟩
    rw [adopt, Level.adopt, if_neg (Nat.not_lt.2 hcount)]
    exact (exists_enterElement_iff r name _ _).2 hname

theorem Mirrors.scope_eq (h : r.Mirrors m) : r.current.scope = m.current.scope :=
  (List.cons.inj h.map_scope).1

theorem Mirrors.outer_eq_nil_iff (h : r.Mirrors m) : r.outer = [] ↔ m.outer = [] := by
  have hlength := congrArg List.length h.map_scope
  rw [List.length_map, List.length_map, List.length_cons, List.length_cons] at hlength
  rw [← List.length_eq_zero_iff, ← List.length_eq_zero_iff]
  omega

theorem Mirrors.exists_outer (h : r.Mirrors m) (hscope : m.current.scope = .fragment) :
    r.current.scope = .fragment ∧ ∃ parent outer, r.outer = parent :: outer := by
  have hfragment := h.scope_eq.trans hscope
  refine ⟨hfragment, List.exists_cons_of_ne_nil fun houter => ?_⟩
  rw [h.scope_eq_root_iff.2 houter] at hfragment
  cases hfragment

theorem Mirrors.endFragment_iff (h : r.Mirrors m) :
    (∃ result, r.endFragment = .ok result) ↔ m.current.scope = .fragment := by
  constructor
  · rintro ⟨⟨o, r'⟩, hr⟩
    obtain ⟨_, _, hscope, _⟩ := endFragment_eq_ok hr
    exact h.scope_eq.symm.trans hscope
  · intro hscope
    obtain ⟨hfragment, parent, outer, houter⟩ := h.exists_outer hscope
    rw [Recorder.endFragment, hfragment, houter]
    exact ⟨_, rfl⟩

theorem Mirrors.abortFragment_iff (h : r.Mirrors m) :
    (∃ r', r.abortFragment = .ok r') ↔ m.current.scope = .fragment := by
  constructor
  · rintro ⟨r', hr⟩
    obtain ⟨_, _, hscope, _⟩ := abortFragment_eq_ok hr
    exact h.scope_eq.symm.trans hscope
  · intro hscope
    obtain ⟨hfragment, parent, outer, houter⟩ := h.exists_outer hscope
    rw [Recorder.abortFragment, hfragment, houter]
    exact ⟨_, rfl⟩

theorem Mirrors.length_items (h : r.Mirrors m) :
    (m.map Quote.text).current.items.length = r.current.entries.size := by
  rw [h.size_eq]
  exact List.length_map _

theorem Mirrors.claimed_le (h : r.Mirrors m) {args : List Token}
    (hargs : args.filterMap Token.record? = (r.current.entries.toList.map Entry.record).drop
      (r.current.entries.toList.length - Draft.claimed args)) :
    Draft.claimed args ≤ m.current.items.length := by
  have hlength : Draft.claimed args = _ := congrArg List.length hargs
  rw [List.length_drop, List.length_map, Array.length_toList, h.size_eq] at hlength
  omega

/-- **Which calls a recorder grants.** -/
theorem Mirrors.step_ok_iff (h : r.Mirrors m) (call : Call ElementName AttributeName) :
    (∃ x, r.step call = .ok x) ↔ (m.map Quote.text).Allows call ∧ r.Places call := by
  have hnames : (m.map Quote.text).names = r.names := h.1
  have hlength := h.length_items
  have hplain : ∀ {p q : Prop}, call.args = [] → (p ↔ q) → (p ↔ q ∧ r.Places call) :=
    fun hargs hpq => hpq.trans (and_iff_left (r.places_of_args_eq_nil hargs)).symm
  cases call with
  | text | raw | doctype | beginFragment | reset | nextId | internElement | internAttribute =>
    exact hplain rfl (iff_of_true ⟨_, rfl⟩ trivial)
  | valued name value | boolean name =>
    refine hplain rfl (exists_map_eq_ok.trans ?_)
    rw [Draft.Allows, hnames]
    exact exists_attributeText_iff r.names name _
  | openElement name =>
    refine hplain rfl (exists_map_eq_ok.trans ?_)
    rw [Draft.Allows, hnames]
    exact exists_enterElement_iff r name _ _
  | openWith name prepared args =>
    rw [openWith_ok_iff, Level.claim_ok_iff, Draft.Allows, hnames]
    constructor
    · rintro ⟨hargs, hknown⟩
      refine ⟨⟨?_, hknown⟩, hargs⟩
      rw [hlength, h.size_eq]
      exact h.claimed_le hargs
    · rintro ⟨⟨_, hknown⟩, hargs⟩
      exact ⟨hargs, hknown⟩
  | adopt name count =>
    refine hplain rfl (exists_map_eq_ok.trans ?_)
    rw [Draft.Allows, hnames, hlength]
    exact exists_adopt_iff r name count
  | closeElement =>
    refine hplain rfl (exists_map_eq_ok.trans (h.closeElement_iff.trans ?_))
    rw [Draft.Allows, h.scope_eq]
    simp only [m.forall_expandedAll_map Quote.text (· = true)]
    rfl
  | fragment args =>
    rw [fragment_ok_iff, Level.claim_ok_iff, Draft.Allows, hlength, h.size_eq]
    exact ⟨fun hargs => ⟨h.claimed_le hargs, hargs⟩, fun hboth => hboth.2⟩
  | endFragment => exact hplain rfl (exists_map_eq_ok.trans h.endFragment_iff)
  | abortFragment => exact hplain rfl (exists_map_eq_ok.trans h.abortFragment_iff)
  | finish =>
    refine hplain rfl (exists_map_eq_ok.trans (h.finish_iff.trans ?_))
    rw [Draft.Allows, m.forall_expandedAll_map Quote.text (· = false), h.outer_eq_nil_iff]
    exact and_congr_left' List.map_eq_nil_iff.symm

theorem Mirrors.claimed_args_le (h : r.Mirrors m) {call : Call ElementName AttributeName}
    (hallow : (m.map Quote.text).Allows call) :
    Draft.claimed call.args ≤ r.current.entries.size := by
  cases call with
  | openWith name prepared args => exact h.length_items ▸ hallow.1
  | fragment args => exact h.length_items ▸ hallow
  | _ => exact Nat.zero_le _

/-! ### Courses -/

theorem exists_of_requestEach_append {as bs : List SpelledCall} {answers : List Answer}
    (h : r.requestEach (as ++ bs) = .ok (answers, r')) : ∃ answers₁ s answers₂,
      r.requestEach as = .ok (answers₁, s) ∧ s.requestEach bs = .ok (answers₂, r') := by
  induction as generalizing r answers with
  | nil => exact ⟨[], r, answers, rfl, h⟩
  | cons call as ih =>
    obtain ⟨answer, t, rest, ht, hrest, rfl⟩ := requestEach_cons_eq_ok.1 h
    obtain ⟨answers₁, s, answers₂, has, hbs⟩ := ih hrest
    exact ⟨answer :: answers₁, s, answers₂,
      requestEach_cons_eq_ok.2 ⟨answer, t, answers₁, ht, has, rfl⟩, hbs⟩

theorem Mirrors.allowsRequest (h : r.Mirrors m) {call : SpelledCall} {answer : Answer}
    (hr : r.request call = .ok (answer, r')) : (m.map Quote.text).AllowsRequest call := by
  obtain ⟨result, names, hext, hrun⟩ := Lookup.call_local call r.names
  have hm : (m.map Quote.text).names = r.names := h.1
  have hadd : Mirrors { r with names } { m with names } := h.addNames hext
  rw [Recorder.request, hrun r rfl] at hr
  rw [Draft.AllowsRequest, hrun { new with names := (m.map Quote.text).names } hm]
  cases result with
  | error e => trivial
  | ok found => exact ((hadd.step_ok_iff found).1 ⟨_, hr⟩).1

/-- **The course of a recorder is taken by the draft that it mirrors.** -/
theorem Mirrors.takes (calls : List SpelledCall) : ∀ {r : Recorder} {m : Draft Quote}
    {answers : List Answer}, r.Mirrors m → r.requestEach calls = .ok (answers, r') →
      ∃ m', r'.Mirrors m' ∧ (m.map Quote.text).Takes calls (m'.map Quote.text) := by
  induction calls with
  | nil =>
    intro r m answers h hr
    cases hr
    exact ⟨m, h, .nil _⟩
  | cons call calls ih =>
    intro r m answers h hr
    obtain ⟨answer, s, rest, hs, hrest, rfl⟩ := requestEach_cons_eq_ok.1 hr
    obtain ⟨m₁, hm₁, hreq⟩ := h.request hs
    obtain ⟨m', hm', htakes⟩ := ih hm₁ hrest
    exact ⟨m', hm', .cons (h.allowsRequest hs) hreq htakes⟩

theorem Reaches.takes {calls : List SpelledCall} (h : Reaches calls r) :
    ∃ m, r.Mirrors m ∧ Draft.new.Takes calls (m.map Quote.text) := by
  obtain ⟨answers, h⟩ := h
  exact mirrors_new.takes calls h

/-- **A request that the draft allows is granted**, once its arguments are the last entries. -/
theorem Mirrors.exists_request (h : r.Mirrors m) {call : SpelledCall}
    (hallow : (m.map Quote.text).AllowsRequest call) :
    ∃ x, r.request (r.place call) = .ok x := by
  obtain ⟨result, names, hext, hrun⟩ := Lookup.call_local call r.names
  have hm : (m.map Quote.text).names = r.names := h.1
  have hadd : Mirrors { r with names } { m with names } := h.addNames hext
  rw [Draft.AllowsRequest, hrun { new with names := (m.map Quote.text).names } hm] at hallow
  rw [Recorder.request, place, Lookup.run_mapArgs, hrun r rfl]
  cases result with
  | error e => exact ⟨_, rfl⟩
  | ok found =>
    have hallow : Draft.Allows ({ m with names }.map Quote.text) found := hallow
    have hargs := Lookup.args_eq (hrun r rfl)
    rw [← hargs]
    refine (hadd.step_ok_iff (Recorder.place { r with names } found)).2 ⟨?_, ?_⟩
    · rwa [← Draft.allows_unplaced, unplaced_place, Draft.allows_unplaced]
    · exact places_place _ (hadd.claimed_args_le hallow)

/-- **A course that the draft takes is a course of the recorder**, with the offsets of this
recorder in it. -/
theorem Mirrors.exists_requestEach {n n' : Draft String} {calls : List SpelledCall}
    (htakes : n.Takes calls n') : ∀ {r : Recorder} {m : Draft Quote}, r.Mirrors m →
      m.map Quote.text = n → ∃ calls' answers r' m', calls'.map Call.unplaced =
        calls.map Call.unplaced ∧ r.requestEach calls' = .ok (answers, r') ∧ r'.Mirrors m' ∧
          m'.map Quote.text = n' := by
  induction htakes with
  | nil =>
    intro r m h hn
    exact ⟨[], [], r, m, rfl, rfl, h, hn⟩
  | @cons n n₁ n' call calls hallow hreq _ ih =>
    intro r m h hn
    subst hn
    obtain ⟨⟨answer, s⟩, hs⟩ := h.exists_request hallow
    obtain ⟨m₁, hm₁, hreq'⟩ := h.request hs
    have hdraft : m₁.map Quote.text = n₁ := by
      rw [← Draft.request_unplaced, unplaced_place, Draft.request_unplaced, hreq] at hreq'
      exact (Option.some.inj hreq').symm
    obtain ⟨calls', answers, r', m', hsame, hrest, hm', hdraft'⟩ := ih hm₁ hdraft
    refine ⟨r.place call :: calls', answer :: answers, r', m', ?_,
      requestEach_cons_eq_ok.2 ⟨answer, s, answers, hs, hrest, rfl⟩, hm', hdraft'⟩
    rw [List.map_cons, hsame, unplaced_place, List.map_cons]

theorem Reaches.of_takes {calls : List SpelledCall} {n : Draft String}
    (htakes : Draft.new.Takes calls n) : ∃ calls' r m, calls'.map Call.unplaced =
      calls.map Call.unplaced ∧ Reaches calls' r ∧ r.Mirrors m ∧ m.map Quote.text = n := by
  obtain ⟨calls', answers, r, m, hsame, hr, hm, hn⟩ := mirrors_new.exists_requestEach htakes rfl
  exact ⟨calls', r, m, hsame, ⟨answers, hr⟩, hm, hn⟩

/-! ### Recorders with the same draft -/

/-- The recorders mirror the same draft, whatever words they have written. -/
def SameDraft (r s : Recorder) : Prop :=
  ∃ m n : Draft Quote, r.Mirrors m ∧ s.Mirrors n ∧ n.map Quote.text = m.map Quote.text

/-- Both recorders can be led to the end of a document by the same requests, with the offsets of
each of them, and then both documents are the same. -/
structure SameDocuments (r s : Recorder) : Prop where
  left : ∀ calls result, r.finishAfter calls = .ok result → ∃ calls' result',
    calls'.map Call.unplaced = calls.map Call.unplaced ∧ s.finishAfter calls' = .ok result'
  right : ∀ calls result, s.finishAfter calls = .ok result → ∃ calls' result',
    calls'.map Call.unplaced = calls.map Call.unplaced ∧ r.finishAfter calls' = .ok result'
  same : ∀ calls calls' result result', calls'.map Call.unplaced = calls.map Call.unplaced →
    r.finishAfter calls = .ok result → s.finishAfter calls' = .ok result' →
      result.2.SameMarkup result'.2

namespace SameDraft

variable {r s r' s' : Recorder} {calls calls' : List SpelledCall}

theorem symm (h : r.SameDraft s) : s.SameDraft r := by
  obtain ⟨m, n, hm, hn, hdrafts⟩ := h
  exact ⟨n, m, hn, hm, hdrafts.symm⟩

theorem requestEach (h : r.SameDraft s)
    (hsame : calls'.map Call.unplaced = calls.map Call.unplaced) {answers answers' : List Answer}
    (hr : r.requestEach calls = .ok (answers, r')) (hs : s.requestEach calls' = .ok (answers', s')) :
    r'.SameDraft s' := by
  obtain ⟨m, n, hm, hn, hdrafts⟩ := h
  obtain ⟨m', hm', htakes⟩ := hm.takes calls hr
  obtain ⟨n', hn', htakes'⟩ := hn.takes calls' hs
  rw [hdrafts] at htakes'
  have hends := htakes.requestEach.symm.trans (htakes'.congr hsame.symm).requestEach
  exact ⟨m', n', hm', hn', (Option.some.inj hends).symm⟩

/-- **Requests of the one recorder are granted by the other one**, with other offsets. -/
theorem exists_requestEach (h : r.SameDraft s) {answers : List Answer}
    (hr : r.requestEach calls = .ok (answers, r')) : ∃ calls' answers' s',
      calls'.map Call.unplaced = calls.map Call.unplaced ∧
        s.requestEach calls' = .ok (answers', s') := by
  obtain ⟨m, n, hm, hn, hdrafts⟩ := h
  obtain ⟨m', hm', htakes⟩ := hm.takes calls hr
  obtain ⟨calls', answers', s', _, hsame, hs, _⟩ := hn.exists_requestEach htakes hdrafts
  exact ⟨calls', answers', s', hsame, hs⟩

theorem exists_finish (h : r.SameDraft s) {t : Recording} (hr : r.finish = .ok (t, r')) :
    ∃ x, s.finish = .ok x := by
  obtain ⟨m, n, hm, hn, hdrafts⟩ := h
  have hallow := ((hm.step_ok_iff .finish).1 (exists_map_eq_ok.2 ⟨_, hr⟩)).1
  rw [← hdrafts] at hallow
  exact exists_map_eq_ok.1 ((hn.step_ok_iff .finish).2 ⟨hallow, s.places_of_args_eq_nil rfl⟩)

/-- **Recorders with the same draft finish with the same markup.** -/
theorem finish (h : r.SameDraft s) {t t' : Recording} (hr : r.finish = .ok (t, r'))
    (hs : s.finish = .ok (t', s')) : t.SameMarkup t' := by
  obtain ⟨m, n, hm, hn, hdrafts⟩ := h
  obtain ⟨d, hcompile, _, hevents⟩ := hm.played hr
  obtain ⟨d', hcompile', _, hevents'⟩ := hn.played hs
  have hnames : (n.map Quote.text).names = (m.map Quote.text).names :=
    congrArg Draft.names hdrafts
  have hnames : n.names = m.names := hnames
  rw [hdrafts, hnames] at hevents'
  refine ⟨d, d', _, hcompile, hcompile', hevents, hevents', fun format => ⟨?_, ?_⟩⟩
  · rw [Document.render_eq, hevents]
    rfl
  · rw [Document.render_eq, hevents']
    rfl

theorem exists_finishAfter (h : r.SameDraft s) {result : List Answer × Recording}
    (hr : r.finishAfter calls = .ok result) : ∃ calls' result',
      calls'.map Call.unplaced = calls.map Call.unplaced ∧ s.finishAfter calls' = .ok result' := by
  obtain ⟨⟨answers, r₁⟩, hcalls, hr⟩ := of_bind_eq_ok hr
  obtain ⟨⟨t, r₂⟩, hfinish, hr⟩ := of_bind_eq_ok hr
  obtain ⟨calls', answers', s₁, hsame, hs⟩ := h.exists_requestEach hcalls
  obtain ⟨⟨t', s₂⟩, hfinish'⟩ := (h.requestEach hsame hcalls hs).exists_finish hfinish
  refine ⟨calls', (answers', t'), hsame, ?_⟩
  rw [finishAfter, hs]
  show Except.bind s₁.finish _ = _
  rw [hfinish']
  rfl

/-- **Recorders with the same draft make the same documents.** -/
theorem sameDocuments (h : r.SameDraft s) : r.SameDocuments s where
  left _ _ hr := h.exists_finishAfter hr
  right _ _ hs := h.symm.exists_finishAfter hs
  same calls calls' result result' hsame hr hs := by
    obtain ⟨⟨answers, r₁⟩, hcalls, hr⟩ := of_bind_eq_ok hr
    obtain ⟨⟨t, r₂⟩, hfinish, hr⟩ := of_bind_eq_ok hr
    obtain ⟨⟨answers', s₁⟩, hcalls', hs⟩ := of_bind_eq_ok hs
    obtain ⟨⟨t', s₂⟩, hfinish', hs⟩ := of_bind_eq_ok hs
    cases hr
    cases hs
    exact (h.requestEach hsame hcalls hcalls').finish hfinish hfinish'

end SameDraft

end Recorder

end HtmlTape
