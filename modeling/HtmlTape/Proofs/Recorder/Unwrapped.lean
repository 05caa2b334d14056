import HtmlTape.Proofs.Code.Compiled
import HtmlTape.Proofs.Draft.Smooth
import HtmlTape.Proofs.Recorder.Granted

/-!
# Fragments are transparent to calls in order

When a document is recorded in the order in which it stands, the calls that begin and end fragments
may be left out: the recorder without them holds the same items, those of open fragments being held
by the levels around them (`Recorder.Unwraps`).  Every call but those two is granted by both
recorders, and they stay so related (`Recorder.Unwraps.step`).

A document that can be finished then is the same document (`Recording.MadeBy.unwrapped`).
-/

namespace HtmlTape

/-! ### Calls -/

/-- The call is one of those by which a document is recorded in the order in which it stands, from
one tag to the next. -/
def Call.isInOrder {E A : Type} : Call E A → Bool
  | .openWith .. | .adopt .. | .fragment _ | .abortFragment | .finish | .reset => false
  | _ => true

def Call.isBracket {E A : Type} : Call E A → Bool
  | .beginFragment | .endFragment => true
  | _ => false

theorem Call.isInOrder_bare {E A : Type} (call : Call E A) :
    call.bare.isInOrder = call.isInOrder := by
  cases call <;> rfl

theorem Call.isBracket_bare {E A : Type} (call : Call E A) :
    call.bare.isBracket = call.isBracket := by
  cases call <;> rfl

theorem Lookup.isBracket_eq {call : SpelledCall} {found : Call ElementName AttributeName}
    {r r' : Recorder} (h : (Lookup.call call).run r = (.ok found, r')) :
    found.isInOrder = call.isInOrder ∧ found.isBracket = call.isBracket := by
  refine ⟨?_, ?_⟩
  · rw [← found.isInOrder_bare, bare_eq h, call.isInOrder_bare]
  · rw [← found.isBracket_bare, bare_eq h, call.isBracket_bare]

/-! ### Drafts -/

namespace Draft

variable {τ : Type} {m m' : Draft τ}

theorem closeElement_eq_some (h : m.closeElement = some m') :
    ∃ name parent outer, m.current.scope = .element name ∧ m.outer = parent :: outer ∧
      m' = { m with current := parent.add (.element name m.current.items), outer } := by
  rw [closeElement] at h
  split at h
  · rename_i name parent outer hscope houter
    cases h
    exact ⟨name, parent, outer, hscope, houter, rfl⟩
  · cases h

theorem endFragment_eq_some (h : m.endFragment = some m') :
    ∃ parent outer, m.current.scope = .fragment ∧ m.outer = parent :: outer ∧
      m' = { m with current := parent.add (.fragment m.current.items), outer } := by
  rw [endFragment] at h
  split at h
  · rename_i parent outer hscope houter
    cases h
    exact ⟨parent, outer, hscope, houter, rfl⟩
  · cases h

end Draft

namespace Recorder

variable {r r' s : Recorder} {m n : Draft Quote} {text before : String} {records : List Nat}
  {items : List (Item Quote)} {scope : Scope}

/-! ### Literal text -/

/-- The next literal comes after all literal text of the open levels. -/
theorem Mirrors.poolHere_eq (h : r.Mirrors m) :
    r.current.poolHere = (Level.poolAll r.levels).utf8ByteSize := by
  obtain ⟨_, k, hk⟩ := h
  have hends := hk.ends.2
  cases hk with
  | cons _ _ _ holds =>
    rw [holds.poolHere_eq]
    exact congrArg String.utf8ByteSize hends.symm

theorem Adds.poolAll_eq (h : r.Adds m r' records items text) :
    Level.poolAll r'.levels = Level.poolAll r.levels ++ text := by
  rw [levels, levels, Level.poolAll_cons, Level.poolAll_cons, h.outer, h.pool, String.append_assoc]

theorem Inside.poolAll_eq (h : r.Inside m before r' scope items text) :
    Level.poolAll r'.levels = Level.poolAll r.levels ++ (before ++ text) := by
  obtain ⟨parent, houter, _, hpool, _⟩ := h.parent
  rw [levels, levels, Level.poolAll_cons, houter, Level.poolAll_cons, Level.poolAll_cons, hpool,
    h.pool, String.append_assoc, String.append_assoc, String.append_assoc]

/-- What the innermost level has goes to the level around it. -/
theorem poolAll_absorb {parent : Level} {outer : List Level} {words : Array Nat} {entry : Entry}
    (houter : r.outer = parent :: outer)
    (hcurrent : r'.current = parent.absorb words r.current.pool entry) (ho : r'.outer = outer) :
    Level.poolAll r'.levels = Level.poolAll r.levels := by
  rw [levels, levels, houter, ho, hcurrent, Level.poolAll_cons, Level.poolAll_cons,
    Level.poolAll_cons, String.append_assoc]
  rfl

/-! ### Two recorders -/

/-- The second recorder holds what the first one holds, but without the fragments. -/
structure Unwraps (r s : Recorder) : Prop where
  names : s.names = r.names
  pool : Level.poolAll s.levels = Level.poolAll r.levels
  drafts : ∃ m n, r.Mirrors m ∧ s.Mirrors n ∧
    n.current :: n.outer = Sheet.smoothAll (m.current :: m.outer)

theorem unwraps_new : new.Unwraps new :=
  ⟨rfl, rfl, Draft.new, Draft.new, mirrors_new, mirrors_new, rfl⟩

namespace Unwraps

variable {answer : Answer}

theorem poolHere_eq (h : r.Unwraps s) : s.current.poolHere = r.current.poolHere := by
  obtain ⟨m, n, hm, hn, _⟩ := h.drafts
  rw [hm.poolHere_eq, hn.poolHere_eq, h.pool]

theorem addNames (h : r.Unwraps s) {names : Names} (hn : r.names.Extends names) :
    Unwraps { r with names } { s with names } := by
  obtain ⟨m, n, hm, hs, hstack⟩ := h.drafts
  exact ⟨rfl, h.pool, _, _, hm.addNames hn, hs.addNames (h.names ▸ hn), hstack⟩

theorem leaf (h : r.Unwraps s) (mark : Mark String)
    (hr : r.step mark.call = .ok (answer, r')) :
    ∃ answer' s', s.step mark.call = .ok (answer', s') ∧ r'.Unwraps s' := by
  obtain ⟨m, n, hm, hn, hstack⟩ := h.drafts
  rw [step_markCall] at hr
  obtain ⟨p, hp, he⟩ := of_map_eq_ok hr
  cases he
  obtain ⟨hknown, hrecords⟩ := (grants_recordMark hm mark).sound p hp
  rw [← h.names] at hknown
  obtain ⟨q, hq⟩ := (grants_recordMark hn mark).granted hknown
  obtain ⟨_, hrecords'⟩ := (grants_recordMark hn mark).sound q hq
  refine ⟨_, q.2, by rw [step_markCall, hq]; rfl, ?_⟩
  refine ⟨hrecords'.names.trans (h.names.trans hrecords.names.symm), ?_, _, _,
    hrecords.adds.mirrors, hrecords'.adds.mirrors, ?_⟩
  · show Level.poolAll q.2.levels = Level.poolAll p.2.levels
    rw [hrecords'.adds.poolAll_eq, hrecords.adds.poolAll_eq, h.pool]
  · rw [h.poolHere_eq, Draft.append, Draft.append, Sheet.smoothAll_append, ← hstack]
    rfl

theorem openElement (h : r.Unwraps s) {name : ElementName} (hr : r.openElement name = .ok r') :
    ∃ s', s.openElement name = .ok s' ∧ r'.Unwraps s' := by
  obtain ⟨m, n, hm, hn, hstack⟩ := h.drafts
  obtain ⟨hname, hopened⟩ := (grants_openElement hm name).sound r' hr
  rw [← h.names] at hname
  obtain ⟨s', hs⟩ := (grants_openElement hn name).granted hname
  obtain ⟨_, hopened'⟩ := (grants_openElement hn name).sound s' hs
  have hinside := inside_openElement hm hr
  have hinside' := inside_openElement hn hs
  refine ⟨s', hs, hopened'.names.trans (h.names.trans hopened.names.symm), ?_, _, _,
    hinside.mirrors, hinside'.mirrors, ?_⟩
  · rw [hinside.poolAll_eq, hinside'.poolAll_eq, h.pool]
  · rw [Sheet.smoothAll_element, ← hstack]
    rfl

theorem closeElement (h : r.Unwraps s) {o : Nat} (hr : r.closeElement = .ok (o, r')) :
    ∃ o' s', s.closeElement = .ok (o', s') ∧ r'.Unwraps s' := by
  obtain ⟨m, n, hm, hn, hstack⟩ := h.drafts
  obtain ⟨m', hm', hclose⟩ := hm.closeElement hr
  obtain ⟨name, parent, outer, hscope, houter, rfl⟩ := Draft.closeElement_eq_some hclose
  obtain ⟨⟨scope, items⟩, sheets, mnames⟩ := m
  cases hscope
  cases houter
  rw [Sheet.smoothAll_element] at hstack
  obtain ⟨hcurrent, hrest⟩ := List.cons.inj hstack
  have hsmooth : Item.smoothAll n.current.items = Item.smoothAll items := by
    rw [hcurrent, Item.smoothAll_smoothAll]
  have hr_scope : r.current.scope = .element name := (List.cons.inj hm.map_scope).1
  have hs_scope : s.current.scope = .element name :=
    (List.cons.inj hn.map_scope).1.trans (congrArg Sheet.scope hcurrent)
  -- the check on void elements does not see fragments
  have hgranted : ∃ result, s.closeElement = .ok result := by
    obtain ⟨name', hname', hvoid⟩ := hm.closeElement_iff.1 ⟨_, hr⟩
    cases hr_scope.symm.trans hname'
    refine hn.closeElement_iff.2 ⟨name, hs_scope, fun hv => ?_⟩
    exact (Item.forall_expandedAll_of_smoothAll hsmooth (· = true)).2 (hvoid hv)
  obtain ⟨⟨o', s'⟩, hs⟩ := hgranted
  obtain ⟨n', hn', hclose'⟩ := hn.closeElement hs
  obtain ⟨name', parent', outer', hscope', houter', rfl⟩ := Draft.closeElement_eq_some hclose'
  cases (congrArg Sheet.scope hcurrent).symm.trans hscope'
  obtain ⟨_, _, _, _, hro, _, _, hrcurrent, hro', hrnames⟩ := closeElement_eq_ok hr
  obtain ⟨_, _, _, _, hso, _, _, hscurrent, hso', hsnames⟩ := closeElement_eq_ok hs
  refine ⟨o', s', hs, hsnames.trans (h.names.trans hrnames.symm), ?_, _, _, hm', hn', ?_⟩
  · rw [poolAll_absorb hro hrcurrent hro', poolAll_absorb hso hscurrent hso', h.pool]
  · rw [houter'] at hrest
    show parent'.add _ :: outer' = _
    rw [Sheet.add, Sheet.add, Sheet.smoothAll_append, ← hrest, hcurrent]
    rfl

/-! ### Fragments -/

theorem beginFragment (h : r.Unwraps s) : r.beginFragment.Unwraps s := by
  obtain ⟨m, n, hm, hn, hstack⟩ := h.drafts
  have hinside := inside_beginFragment hm
  refine ⟨h.names, ?_, _, n, hinside.mirrors, hn, ?_⟩
  · rw [h.pool, hinside.poolAll_eq, String.append_empty, String.append_empty]
  · rw [Sheet.smoothAll_begin]
    exact hstack

theorem endFragment (h : r.Unwraps s) {o : Nat} (hr : r.endFragment = .ok (o, r')) :
    r'.Unwraps s := by
  obtain ⟨m, n, hm, hn, hstack⟩ := h.drafts
  obtain ⟨m', hm', hend⟩ := hm.endFragment hr
  obtain ⟨parent, outer, hscope, houter, rfl⟩ := Draft.endFragment_eq_some hend
  obtain ⟨⟨scope, items⟩, sheets, mnames⟩ := m
  cases hscope
  cases houter
  obtain ⟨_, _, _, hro, _, hrcurrent, hro', hrnames⟩ := endFragment_eq_ok hr
  refine ⟨h.names.trans hrnames.symm, ?_, _, n, hm', hn, ?_⟩
  · rw [h.pool, poolAll_absorb hro hrcurrent hro']
  · exact hstack.trans (Sheet.smoothAll_end items parent outer).symm

/-! ### Courses -/

/-- **A call of the first recorder is granted by the second one as well**, unless it begins or ends
a fragment; then the second recorder is left as it is. -/
theorem step (h : r.Unwraps s) {call : Call ElementName AttributeName}
    (horder : call.isInOrder) (hr : r.step call = .ok (answer, r')) :
    if call.isBracket then r'.Unwraps s
    else ∃ answer' s', s.step call = .ok (answer', s') ∧ r'.Unwraps s' := by
  cases call with
  | text value => exact h.leaf (.text value) hr
  | raw value => exact h.leaf (.raw value) hr
  | doctype => exact h.leaf .doctype hr
  | valued name value => exact h.leaf (.valued name value) hr
  | boolean name => exact h.leaf (.boolean name) hr
  | openElement name =>
    obtain ⟨_, hr, he⟩ := of_map_eq_ok hr
    cases he
    obtain ⟨s', hs, hunwraps⟩ := h.openElement hr
    exact ⟨_, s', by rw [Recorder.step, hs]; rfl, hunwraps⟩
  | closeElement =>
    obtain ⟨⟨o, _⟩, hr, he⟩ := of_map_eq_ok hr
    cases he
    obtain ⟨o', s', hs, hunwraps⟩ := h.closeElement hr
    exact ⟨_, s', by rw [Recorder.step, hs]; rfl, hunwraps⟩
  | beginFragment =>
    cases hr
    exact h.beginFragment
  | endFragment =>
    obtain ⟨⟨o, _⟩, hr, he⟩ := of_map_eq_ok hr
    cases he
    exact h.endFragment hr
  | nextId =>
    cases hr
    exact ⟨_, _, rfl, h.names, h.pool, h.drafts⟩
  | internElement name | internAttribute name =>
    cases hr
    exact ⟨_, s, rfl, h⟩
  | _ => cases horder

theorem request (h : r.Unwraps s) {call : SpelledCall} (horder : call.isInOrder)
    (hr : r.request call = .ok (answer, r')) :
    if call.isBracket then r'.Unwraps s
    else ∃ answer' s', s.request call = .ok (answer', s') ∧ r'.Unwraps s' := by
  by_cases hbracket : call.isBracket
  · -- there are no names to be looked up
    rw [if_pos hbracket]
    cases call with
    | beginFragment =>
      cases hr
      exact h.beginFragment
    | endFragment => exact Unwraps.step h (rfl : Call.endFragment.isInOrder = true) hr
    | _ => cases hbracket
  · rw [if_neg hbracket]
    obtain ⟨result, names, hext, hrun⟩ := Lookup.call_local call r.names
    have hadd := h.addNames hext
    have hfind := hrun r rfl
    rw [Recorder.request, hfind] at hr
    rw [Recorder.request, hrun s h.names]
    cases result with
    | ok found =>
      obtain ⟨hfound, hfound'⟩ := Lookup.isBracket_eq hfind
      have hstep := hadd.step (hfound.trans horder) hr
      rwa [hfound', if_neg hbracket] at hstep
    | error e =>
      cases hr
      exact ⟨_, _, rfl, hadd⟩

/-- **The second recorder grants a course of requests without those that begin and end
fragments.** -/
theorem requestEach (calls : List SpelledCall) : ∀ {r s : Recorder} {answers : List Answer},
    r.Unwraps s → (∀ call ∈ calls, call.isInOrder) → r.requestEach calls = .ok (answers, r') →
    ∃ answers' s', s.requestEach (calls.filter (!·.isBracket)) = .ok (answers', s') ∧
      r'.Unwraps s' := by
  induction calls with
  | nil =>
    intro r s answers h _ hr
    cases hr
    exact ⟨[], s, rfl, h⟩
  | cons call calls ih =>
    intro r s answers h horder hr
    obtain ⟨answer, r₁, answers', hcall, hrest, rfl⟩ := requestEach_cons_eq_ok.1 hr
    have hstep := h.request (horder call List.mem_cons_self) hcall
    have horder' : ∀ call ∈ calls, call.isInOrder := fun call hmem =>
      horder call (List.mem_cons_of_mem _ hmem)
    cases hbracket : call.isBracket with
    | true =>
      rw [if_pos hbracket] at hstep
      obtain ⟨answers', s', hs, hunwraps⟩ := ih hstep horder' hrest
      refine ⟨answers', s', ?_, hunwraps⟩
      rw [List.filter_cons, hbracket]
      exact hs
    | false =>
      rw [if_neg (by rw [hbracket]; simp)] at hstep
      obtain ⟨answer', s₁, hs₁, h₁⟩ := hstep
      obtain ⟨answers', s', hs, hunwraps⟩ := ih h₁ horder' hrest
      refine ⟨answer' :: answers', s', ?_, hunwraps⟩
      rw [List.filter_cons, hbracket]
      exact requestEach_cons_eq_ok.2 ⟨answer', s₁, answers', hs₁, hs, rfl⟩

/-- **Both documents are the same.** -/
theorem finish (h : r.Unwraps s) {t : Recording} (hr : r.finish = .ok (t, r')) :
    ∃ t' s' d, s.finish = .ok (t', s') ∧ t.compile = .ok d ∧ t'.compile = .ok d := by
  obtain ⟨m, n, hm, hn, hstack⟩ := h.drafts
  obtain ⟨hro, hnodes⟩ := hm.finish_iff.1 ⟨_, hr⟩
  have hmo : m.outer = [] := hm.outer_eq_nil hro
  have hscope : m.current.scope = .root :=
    (List.cons.inj hm.map_scope).1.symm.trans (hm.scope_eq_root_iff.2 hro)
  rw [hmo] at hstack
  obtain ⟨⟨scope, items⟩, sheets, mnames⟩ := m
  cases hscope
  obtain ⟨hcurrent, hno⟩ := List.cons.inj hstack
  have hsmooth : Item.smoothAll n.current.items = Item.smoothAll items := by
    rw [hcurrent, Item.smoothAll_smoothAll]
  have hso : s.outer = [] := by
    have hscopes := (List.cons.inj hn.map_scope).2
    rw [hno] at hscopes
    exact List.map_eq_nil_iff.1 hscopes
  have hgranted : ∃ result, s.finish = .ok result := by
    refine hn.finish_iff.2 ⟨hso, ?_⟩
    exact (Item.forall_expandedAll_of_smoothAll hsmooth (· = false)).2 hnodes
  obtain ⟨⟨t', s'⟩, hs⟩ := hgranted
  have hcompile := hm.compile_eq hr
  have hpool : s.current.pool = r.current.pool := by
    have hpools := h.pool
    rw [levels, levels, hso, hro] at hpools
    simpa [Level.poolAll_cons] using hpools
  have htrees : n.trees = Item.treesAll items := Item.treesAll_of_smoothAll hsmooth
  have hcompile' := hn.compile_eq hs
  rw [htrees, hpool, h.names] at hcompile'
  exact ⟨t', s', _, hs, hcompile, hcompile'⟩

end Unwraps

end Recorder

/-- **Fragments are transparent to calls in order**: without the calls that begin and end fragments
the document is accepted as well, and it is the same document. -/
theorem Recording.MadeBy.unwrapped {t : Recording} {calls : List SpelledCall} (h : t.MadeBy calls)
    (horder : ∀ call ∈ calls, call.isInOrder) :
    ∃ (t' : Recording) (d : Document), t'.MadeBy (calls.filter (!·.isBracket)) ∧
      t.compile = .ok d ∧ t'.compile = .ok d := by
  obtain ⟨r, r', ⟨answers, hcalls⟩, hfinish⟩ := h
  obtain ⟨answers', s, hcalls', hunwraps⟩ :=
    Recorder.Unwraps.requestEach calls Recorder.unwraps_new horder hcalls
  obtain ⟨t', s', d, hfinish', hcompile, hcompile'⟩ := hunwraps.finish hfinish
  exact ⟨t', d, ⟨s, s', ⟨answers', hcalls'⟩, hfinish'⟩, hcompile, hcompile'⟩

end HtmlTape
