import HtmlTape.Proofs.Event.Played
import HtmlTape.Proofs.Recorder.Aborted
import HtmlTape.Proofs.Recorder.Alike
import HtmlTape.Proofs.Writer.Handled

/-!
# Aborted fragments leave no trace

After an aborted fragment a recorder is what it was before, but it knows more names, and it gives
other codes to the names that come after.  So the course of a recording with the fragment and the
one without it are followed side by side: the recorders stay alike, the drafts that they mirror stay
alike, and the requests of both carry the same strings (`Recorder.Twins`).  Both courses then end in
the same fault or answer the same offsets and finish with the same events, and so with the same
markup in every format (`Recorder.Rollback.traceless`).
-/

namespace HtmlTape

variable {names wider : Names} {k : Stock}

/-! ### What is recorded is alike with more names -/

theorem Names.Extends.sameElement (h : names.Extends wider) {name : ElementName}
    (hname : (names.elementText? name).isSome) : wider.SameElement names name name := by
  obtain ⟨text, ht⟩ := Option.isSome_iff_exists.1 hname
  exact ⟨text, h.element name text ht, ht⟩

theorem Names.Extends.sameAttribute (h : names.Extends wider) {name : AttributeName}
    (hname : (names.attributeText? name).isSome) : wider.SameAttribute names name name := by
  obtain ⟨text, ht⟩ := Option.isSome_iff_exists.1 hname
  exact ⟨text, h.attr name text ht, ht⟩

theorem Shows.alike (hn : names.Extends wider) (hknown : ∀ p ∈ k.records, p.2.Known names)
    {limit : Nat} {refs : List Ref} {items : List (Item Quote)} (h : Shows k limit refs items) :
    Item.Alike wider names (Item.mapAll Quote.text items) (Item.mapAll Quote.text items) := by
  induction h with
  | nil => exact .nil
  | @mark _ o m refs items hmem _ _ _ ih =>
    refine .mark ?_ ih
    have hleaf := hknown _ hmem
    cases m with
    | text q => exact .text q.text
    | raw q => exact .raw q.text
    | doctype => exact .doctype
    | valued name q => exact .valued q.text (hn.sameAttribute hleaf)
    | boolean name => exact .boolean (hn.sameAttribute hleaf)
  | element hmem _ _ _ _ ih₁ ih₂ =>
    exact .element (hn.sameElement (hknown _ hmem)) ih₁ ih₂
  | fragment _ _ ih₁ ih₂ => exact .fragment ih₁ ih₂

theorem Stands.known {levels : List Level} {sheets : List (Sheet Quote)}
    (h : Stands names levels sheets k) : ∀ p ∈ k.records, p.2.Known names := by
  induction h with
  | nil =>
    intro p hp
    cases hp
  | cons _ _ _ holds ih =>
    intro p hp
    rcases List.mem_append.1 hp with hp | hp
    · exact ih p hp
    · exact holds.known p hp

theorem Level.Holds.alike (hn : names.Extends wider) {level : Level} {items : List (Item Quote)}
    {blocks : List Block} (h : level.Holds k names items blocks) :
    level.Alike wider names level where
  scope := by
    have hname := h.name
    cases hs : level.scope with
    | root => exact .root
    | element name => exact .element (hn.sameElement (hname name hs))
    | fragment => exact .fragment
  start := rfl
  poolStart := rfl
  size := rfl
  pool := rfl
  entries := rfl

theorem Stands.alike (hn : names.Extends wider) {levels : List Level} {sheets : List (Sheet Quote)}
    (h : Stands names levels sheets k) :
    List.Forall₂ (Level.Alike wider names) levels levels ∧
      List.Forall₂ (Sheet.Alike wider names) (sheets.map (Sheet.map Quote.text))
        (sheets.map (Sheet.map Quote.text)) := by
  induction h with
  | nil => exact ⟨.nil, .nil⟩
  | @cons level outer sheet sheets k blocks below scope root holds ih =>
    have hknown := (Stands.cons below scope root holds).known
    have hlevel := holds.alike hn
    refine ⟨.cons hlevel ih.1, .cons ⟨?_, ?_⟩ ih.2⟩
    · show Scope.Alike wider names sheet.scope sheet.scope
      rw [← scope]
      exact hlevel.scope
    · show Item.Alike wider names (sheet.items.map _) (sheet.items.map _)
      rw [← Item.mapAll_eq_map]
      exact holds.shows_refs.alike hn hknown

/-! ### Two courses side by side -/

/-- Both recordings are compiled to documents with the same events, which every format writes as
the same markup. -/
def Recording.SameMarkup (t t' : Recording) : Prop :=
  ∃ (d d' : Document) (events : List Event), t.compile = .ok d ∧ t'.compile = .ok d' ∧
    d.events = .ok events ∧ d'.events = .ok events ∧
    ∀ format : Format, d.render format = .ok (format.text (pieces events)) ∧
      d'.render format = .ok (format.text (pieces events))

def Answer.record? : Answer → Option Nat
  | record offset => some offset
  | _ => none

namespace Recorder

/-- No name of the requests is refused because all codes are taken. -/
def hasRoom : Recorder → List SpelledCall → Bool
  | _, [] => true
  | r, call :: calls =>
    match r.request call with
    | .ok (.refused .outOfCodes, _) => false
    | .ok (_, r) => r.hasRoom calls
    | .error _ => true

/-- The requests to the one recorder and to the other carry the same strings and the same tokens.
A name is spelled alike in both, or given by a code that has the same text in both recorders at that
time. -/
def Twins : Recorder → Recorder → List SpelledCall → List SpelledCall → Prop
  | _, _, [], [] => True
  | r, s, call :: calls, call' :: calls' => r.names.SameRequest s.names call call' ∧
    ∀ answer r' answer' s', r.request call = .ok (answer, r') →
      s.request call' = .ok (answer', s') → Twins r' s' calls calls'
  | _, _, _, _ => False

/-- The answers to some requests, and the recording when the document is finished after them. -/
def finishAfter (r : Recorder) (calls : List SpelledCall) :
    Except Fault (List Answer × Recording) := do
  let (answers, r) ← r.requestEach calls
  let (t, _) ← r.finish
  return (answers, t)

/-- The recorders are alike, and so are the drafts that they mirror. -/
structure Paired (r s : Recorder) : Prop where
  recorders : r.Alike s
  drafts : ∃ m m' : Draft Quote, r.Mirrors m ∧ s.Mirrors m' ∧
    (m.map Quote.text).Alike (m'.map Quote.text)

variable {r s r' : Recorder}

theorem AnswersAlike.record?_eq {names names' : Names} {answer answer' : Answer}
    (h : AnswersAlike names names' answer answer') : answer.record? = answer'.record? := by
  cases h <;> rfl

/-- **Requests with the same strings keep recorders paired.** -/
theorem Paired.request (h : r.Paired s) {call call' : SpelledCall}
    (hc : r.names.SameRequest s.names call call')
    (hroom : ∀ t, r.request call ≠ .ok (.refused .outOfCodes, t)) :
    Outcome.Alike (fun p p' => p.1.record? = p'.1.record? ∧ p.2.Paired p'.2)
      (r.request call) (s.request call') := by
  obtain ⟨halike, m, m', hm, hm', hdrafts⟩ := h
  have hroom' : ∀ q, (Lookup.call call).run { new with names := (m.map Quote.text).names } ≠
      (.error .outOfCodes, q) := by
    intro q hq
    obtain ⟨result, names, _, hrun⟩ := Lookup.call_local call r.names
    rw [hrun _ hm.1] at hq
    cases hq
    refine hroom { r with names } ?_
    rw [Recorder.request, hrun r rfl]
  have hnames : (m.map Quote.text).names = r.names := hm.1
  have hnames' : (m'.map Quote.text).names = s.names := hm'.1
  have hdrafts := hdrafts.request (hnames ▸ hnames' ▸ hc) hroom'
  have hsteps := halike.request hc hroom
  generalize hr : r.request call = x at hsteps
  generalize hs : s.request call' = y at hsteps
  cases hsteps with
  | fault fault => exact .fault fault
  | @granted p p' hsteps =>
    obtain ⟨answer, t⟩ := p
    obtain ⟨answer', t'⟩ := p'
    obtain ⟨n, hn, hreq⟩ := hm.request hr
    obtain ⟨n', hn', hreq'⟩ := hm'.request hs
    rw [hreq, hreq'] at hdrafts
    cases hdrafts with
    | some hdrafts => exact .granted ⟨hsteps.1.record?_eq, hsteps.2, n, n', hn, hn', hdrafts⟩

/-- **Courses with the same strings keep recorders paired.** -/
theorem Paired.requestEach (calls : List SpelledCall) : ∀ {calls' : List SpelledCall}
    {r s : Recorder}, r.Paired s → Twins r s calls calls' → r.hasRoom calls →
      Outcome.Alike (fun p p' => p.1.map Answer.record? = p'.1.map Answer.record? ∧ p.2.Paired p'.2)
        (r.requestEach calls) (s.requestEach calls') := by
  induction calls with
  | nil =>
    intro calls' r s h htwins _
    cases calls' with
    | nil => exact .granted ⟨rfl, h⟩
    | cons => exact htwins.elim
  | cons call calls ih =>
    intro calls' r s h htwins hroom
    cases calls' with
    | nil => exact htwins.elim
    | cons call' calls' =>
      obtain ⟨hc, hrest⟩ := htwins
      have hfirst : ∀ t, r.request call ≠ .ok (.refused .outOfCodes, t) := by
        intro t ht
        rw [hasRoom, ht] at hroom
        cases hroom
      have hsteps := h.request hc hfirst
      rw [Recorder.requestEach, Recorder.requestEach]
      rw [hasRoom] at hroom
      generalize hr : r.request call = x at hsteps hroom
      generalize hs : s.request call' = y at hsteps
      cases hsteps with
      | fault fault => exact .fault fault
      | @granted p p' hsteps =>
        obtain ⟨answer, t⟩ := p
        obtain ⟨answer', t'⟩ := p'
        have hroom : t.hasRoom calls := by
          split at hroom
          · cases hroom
          · rename_i heq
            cases heq
            exact hroom
          · rename_i heq
            cases heq
        refine (ih hsteps.2 (hrest _ _ _ _ hr hs) hroom).bind fun q q' hq => .granted ?_
        exact ⟨by rw [List.map_cons, List.map_cons, hsteps.1, hq.1], hq.2⟩

/-- **Paired recorders finish with the same markup.** -/
theorem Paired.finish (h : r.Paired s) :
    Outcome.Alike (fun p p' => p.1.SameMarkup p'.1) r.finish s.finish := by
  obtain ⟨halike, m, m', hm, hm', hdrafts⟩ := h
  have hfinish := halike.finish
  generalize hr : r.finish = x at hfinish
  generalize hs : s.finish = y at hfinish
  cases hfinish with
  | fault fault => exact .fault fault
  | @granted p p' =>
    obtain ⟨d, hcompile, _, hevents⟩ := hm.played hr
    obtain ⟨d', hcompile', _, hevents'⟩ := hm'.played hs
    have heq : Tree.eventsAll m.names (m.map Quote.text).trees =
        Tree.eventsAll m'.names (m'.map Quote.text).trees := hdrafts.events_eq
    rw [heq] at hevents
    refine .granted ⟨d, d', _, hcompile, hcompile', hevents, hevents', fun format => ?_⟩
    constructor
    · rw [Document.render_eq, hevents]
      rfl
    · rw [Document.render_eq, hevents']
      rfl

/-! ### After an aborted fragment -/

theorem Reaches.names_sound {calls : List SpelledCall} (h : Reaches calls r) : r.names.Sound := by
  obtain ⟨m, hm, hcalls⟩ := h.mirrors
  have hsound := Draft.names_sound hcalls
  rwa [show (m.map Quote.text).names = r.names from hm.1] at hsound

theorem Rollback.paired (h : r.Rollback r') {before all : List SpelledCall} (hr : Reaches before r)
    (hr' : Reaches all r') : r'.Paired r := by
  have hcovers := h.names.covers hr'.names_sound hr.names_sound
  obtain ⟨m, hm, _⟩ := hr.mirrors
  have hm' : r'.Mirrors { m with names := r'.names } :=
    (hm.addNames h.names).congr h.current h.outer rfl
  have hnames : m.names = r.names := hm.1
  obtain ⟨k, hk⟩ := hm.2
  obtain ⟨hlevels, hsheets⟩ := hk.alike h.names
  refine ⟨?_, _, m, hm', hm, ?_⟩
  · cases hlevels with
    | cons hcurrent houter =>
      refine ⟨hcovers, ?_, ?_⟩
      · rw [h.current]
        exact hcurrent
      · rw [h.outer]
        exact houter
  · cases hsheets with
    | cons hcurrent houter =>
      refine ⟨?_, ?_, ?_⟩
      · show r'.names.Covers m.names
        rw [hnames]
        exact hcovers
      · show Sheet.Alike r'.names m.names _ _
        rw [hnames]
        exact hcurrent
      · show List.Forall₂ (Sheet.Alike r'.names m.names) _ _
        rw [hnames]
        exact houter

/-- Requests by names that are spelled or known carry the same strings for all recorders that know
these names. -/
theorem twins_self {names : Names} : ∀ {calls : List SpelledCall} {r s : Recorder},
    (∀ call ∈ calls, names.SameRequest names call call ∧ call.startsOver = false) →
      names.Extends r.names → names.Extends s.names → Twins r s calls calls := by
  intro calls
  induction calls with
  | nil =>
    intros
    exact trivial
  | cons call calls ih =>
    intro r s hcalls hr hs
    obtain ⟨hsame, hover⟩ := hcalls call (.head _)
    refine ⟨hsame.mono hr hs, ?_⟩
    intro answer r' answer' s' hrequest hrequest'
    have keeps : ∀ {t t' : Recorder} {answer : Answer}, names.Extends t.names →
        t.request call = .ok (answer, t') → names.Extends t'.names := by
      intro t t' answer ht h
      rcases change_of_request h with ⟨_, hstarts⟩ | ⟨_, hnames⟩
      · rw [hover] at hstarts
        cases hstarts
      · exact ht.trans hnames
    exact ih (fun call hmem => hcalls call (.tail _ hmem)) (keeps hr hrequest) (keeps hs hrequest')

/-- Both answer the same offsets, and finish with the same markup. -/
def SameEnd (p p' : List Answer × Recording) : Prop :=
  p.1.map Answer.record? = p'.1.map Answer.record? ∧ p.2.SameMarkup p'.2

/-- **Paired recorders end alike** after requests that carry the same strings. -/
theorem Paired.finishAfter (h : r.Paired s) {calls calls' : List SpelledCall}
    (htwins : Twins r s calls calls') (hroom : r.hasRoom calls) :
    Outcome.Alike SameEnd (r.finishAfter calls) (s.finishAfter calls') := by
  refine (h.requestEach calls htwins hroom).bind fun p p' hp => ?_
  exact hp.2.finish.bind fun q q' hq => .granted ⟨hp.1, hq⟩

/-- The recorder `r'` is left without a trace of what happened since `r`. -/
structure Traceless (r r' : Recorder) : Prop where
  /-- Nothing but further names, the counters and the ids is left. -/
  rollback : r.Rollback r'
  /-- What comes after has the same results with and without what happened, if it carries the same
  strings and its names get codes. -/
  continued : ∀ calls calls' : List SpelledCall, Twins r' r calls calls' → r'.hasRoom calls →
    Outcome.Alike SameEnd (r'.finishAfter calls) (r.finishAfter calls')
  /-- The same requests carry the same strings if their codes were given out before. -/
  twins : ∀ calls : List SpelledCall,
    (∀ call ∈ calls, r.names.SameRequest r.names call call ∧ call.startsOver = false) →
      Twins r' r calls calls

/-- **A recorder that was rolled back shows no trace** of what was dropped. -/
theorem Rollback.traceless (h : r.Rollback r') {before all : List SpelledCall}
    (hr : Reaches before r) (hr' : Reaches all r') : r.Traceless r' where
  rollback := h
  continued _ _ htwins hroom := (h.paired hr hr').finishAfter htwins hroom
  twins _ hcalls := twins_self hcalls h.names (.refl _)

end Recorder

end HtmlTape
