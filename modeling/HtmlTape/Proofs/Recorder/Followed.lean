import HtmlTape.Proofs.Recorder.Spliced

/-!
# Courses of the flat recorder

The flat recorder tracks the recorder with levels call by call (`Recorder.Mirrors.step_flat`), and
so over every course of requests (`Recorder.Mirrors.requestEach_flat`).  Whatever it reaches is what
a recorder reaches, laid flat (`FlatRecorder.Reaches.exists_flat`), and what it finishes is a
recording that the requests make (`FlatRecorder.Reaches.madeBy`).
-/

namespace HtmlTape

namespace Recorder

variable {r : Recorder} {m : Draft Quote}

theorem Mirrors.fragment_flat (h : r.Mirrors m) (args : List Token) :
    Tracks (Prod.map id flat) (r.flat.fragment args) (r.fragment args) := by
  rw [FlatRecorder.fragment, Recorder.fragment, flat_claim]
  cases hclaim : r.current.claim args with
  | error fault => exact .inr rfl
  | ok result =>
    obtain ⟨rest, claimed⟩ := result
    obtain ⟨hcount, hsplit⟩ := claim_eq_ok hclaim
    cases hsplit
    have hroot : Scope.fragment ≠ .root := by simp
    obtain ⟨m', hm, _⟩ := h.enter hroot (by simp) hcount
    refine (h.flattens.enter_flat .fragment hcount).bind fun inner hinner => ?_
    cases hinner
    exact hm.flattens.endFragment

theorem Flattens.finish (h : r.Flattens) :
    Tracks (Prod.map id flat) r.flat.finish r.finish := by
  rw [h.finish_flat]
  exact .before fun _ _ => .checked rfl

/-- **The flat recorder tracks every call.** -/
theorem Mirrors.step_flat (h : r.Mirrors m) (call : Call ElementName AttributeName) :
    Tracks (Prod.map id flat) (r.flat.step call) (r.step call) := by
  have hf := h.flattens
  have htext : r.countText.Flattens := hf.congr rfl
  cases call with
  | text value => exact (htext.putLeaf [] .text value).map fun _ => rfl
  | raw value => exact (htext.putLeaf [] .raw value).map fun _ => rfl
  | doctype => exact (hf.putMark [] .doctype).map fun _ => rfl
  | valued name value => exact (hf.valuedAttribute [] name value).map fun _ => rfl
  | boolean name => exact (hf.booleanAttribute [] name).map fun _ => rfl
  | openElement name => exact (hf.openElement name).map fun _ => rfl
  | openWith name prepared args => exact (h.openElementWith_flat name _ args).map fun _ => rfl
  | adopt name count => exact (hf.adopt name count).map fun _ => rfl
  | closeElement =>
    have hclose : Tracks (Prod.map id flat) r.flat.closeElement r.closeElement := by
      rw [hf.closeElement_flat]
      exact .before fun _ _ => .checked rfl
    exact hclose.map fun _ => rfl
  | beginFragment => exact hf.beginFragment.map fun _ => rfl
  | fragment args => exact (h.fragment_flat args).map fun _ => rfl
  | endFragment => exact hf.endFragment.map fun _ => rfl
  | abortFragment =>
    have habort : Tracks flat r.flat.abortFragment r.abortFragment := .inr hf.abortFragment
    exact habort.map fun _ => rfl
  | finish => exact hf.finish.map fun _ => rfl
  | reset | nextId | internElement | internAttribute => exact .ok rfl

/-- **The flat recorder tracks every request.** -/
theorem Mirrors.request_flat (h : r.Mirrors m) (call : SpelledCall) :
    Tracks (Prod.map id flat) (r.flat.request call) (r.request call) := by
  obtain ⟨result, names, hext, hrun⟩ := Lookup.call_local call r.names
  have hlookUp : FlatRecorder.lookUp r.flat.names call = (result, names) := by
    rw [FlatRecorder.lookUp, hrun { new with names := r.flat.names } rfl]
  rw [FlatRecorder.request, Recorder.request, hrun r rfl, hlookUp]
  cases result with
  | error e => exact .ok rfl
  | ok call => exact (h.addNames hext).step_flat call

end Recorder

/-! ### Courses -/

def FlatRecorder.requestEach (f : FlatRecorder) :
    List SpelledCall → Except Fault (List Answer × FlatRecorder)
  | [] => .ok ([], f)
  | call :: calls => do
    let (answer, f) ← f.request call
    let (answers, f) ← f.requestEach calls
    return (answer :: answers, f)

/-- A flat recorder as it may be after some requests, the first of them to a new one. -/
def FlatRecorder.Reaches (calls : List SpelledCall) (f : FlatRecorder) : Prop :=
  ∃ answers, FlatRecorder.new.requestEach calls = .ok (answers, f)

/-- **The flat recorder tracks every course of requests.** -/
theorem Recorder.Mirrors.requestEach_flat (calls : List SpelledCall) : ∀ {r : Recorder}
    {m : Draft Quote}, r.Mirrors m →
      Tracks (Prod.map id Recorder.flat) (r.flat.requestEach calls) (r.requestEach calls) := by
  induction calls with
  | nil => exact fun _ => .ok rfl
  | cons call calls ih =>
    intro r m h
    rw [FlatRecorder.requestEach, Recorder.requestEach]
    refine (h.request_flat call).bind fun result hr => ?_
    obtain ⟨answer, r'⟩ := result
    obtain ⟨m', hm', _⟩ := h.request hr
    exact (ih hm').bind fun _ _ => .ok rfl

/-- **What a flat recorder reaches is what a recorder reaches**, laid flat. -/
theorem FlatRecorder.Reaches.exists_flat {calls : List SpelledCall} {f : FlatRecorder}
    (h : FlatRecorder.Reaches calls f) : ∃ r, Recorder.Reaches calls r ∧ f = r.flat := by
  obtain ⟨answers, h⟩ := h
  obtain ⟨⟨answers', r⟩, hr, he⟩ := (Recorder.mirrors_new.requestEach_flat calls).of_eq_ok h
  cases he
  exact ⟨r, ⟨answers', hr⟩, rfl⟩

/-- **What a flat recorder finishes is made by its requests.** -/
theorem FlatRecorder.Reaches.madeBy {calls : List SpelledCall} {f f' : FlatRecorder}
    {t : Recording} (h : FlatRecorder.Reaches calls f) (hf : f.finish = .ok (t, f')) :
    t.MadeBy calls := by
  obtain ⟨r, hr, rfl⟩ := h.exists_flat
  obtain ⟨m, hm, _⟩ := hr.mirrors
  obtain ⟨⟨_, r'⟩, hfinish, he⟩ := hm.flattens.finish.of_eq_ok hf
  cases he
  exact ⟨r, r', hr, hfinish⟩

end HtmlTape
