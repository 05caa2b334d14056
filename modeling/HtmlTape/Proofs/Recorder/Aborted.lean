import HtmlTape.Proofs.Recorder.Mirror

/-!
# Aborted fragments

A granted request changes the stack of levels at its top: it changes the innermost level, opens a
level inside of it, or closes it into the level around it (`Level.Change`).  So as long as more
levels are open than when a fragment was begun, the levels from before it are the lowest levels of
the stack as they were (`Recorder.Over`), and the abort that matches the beginning leaves just these
(`Recorder.Aborts.rollback`): it cuts the words and the literals off at the offsets that were noted
down then (`Recorder.Reaches.abortFragment_cuts`).  Of the aborted requests the recorder keeps the
names, its counters and the ids that it gave out.
-/

namespace HtmlTape

/-! ### Starting over -/

/-- The call leaves a new recorder behind. -/
def Call.startsOver {E A : Type} : Call E A → Bool
  | .finish | .reset => true
  | _ => false

theorem Call.startsOver_bare {E A : Type} (call : Call E A) :
    call.bare.startsOver = call.startsOver := by
  cases call <;> rfl

theorem Lookup.startsOver_eq {call : SpelledCall} {found : Call ElementName AttributeName}
    {r r' : Recorder} (h : (Lookup.call call).run r = (.ok found, r')) :
    found.startsOver = call.startsOver := by
  rw [← found.startsOver_bare, bare_eq h, call.startsOver_bare]

/-! ### The stack of levels -/

/-- What a request may do to the open levels. -/
inductive Level.Change : List Level → List Level → Prop
  | top {level level' : Level} {rest : List Level} : Change (level :: rest) (level' :: rest)
  | opened {level level' inner : Level} {rest : List Level} :
    Change (level :: rest) (inner :: level' :: rest)
  | closed {level parent parent' : Level} {rest : List Level} :
    Change (level :: parent :: rest) (parent' :: rest)

/-- Levels below the top stay where they are. -/
theorem Level.Change.suffix {levels levels' lower : List Level} (h : Change levels levels')
    (hlower : lower <:+ levels) (hlt : lower.length < levels.length)
    (hlt' : lower.length < levels'.length) : lower <:+ levels' := by
  -- In each case `rest` is below the levels that change, and there are enough of it.
  have key : ∀ rest, rest <:+ levels → rest <:+ levels' → lower.length ≤ rest.length →
      lower <:+ levels' := fun rest hrest hrest' hle =>
    (List.suffix_of_suffix_length_le hlower hrest hle).trans hrest'
  cases h with
  | @top level level' rest =>
    exact key rest (List.suffix_cons _ _) (List.suffix_cons _ _) (Nat.le_of_lt_succ hlt)
  | @opened level level' inner rest =>
    exact key rest (List.suffix_cons _ _) ((List.suffix_cons _ _).trans (List.suffix_cons _ _))
      (Nat.le_of_lt_succ hlt)
  | @closed level parent parent' rest =>
    exact key rest ((List.suffix_cons _ _).trans (List.suffix_cons _ _)) (List.suffix_cons _ _)
      (Nat.le_of_lt_succ hlt')

namespace Recorder

variable {r r' s : Recorder}

/-- **What a granted call does to the levels and the names**, if it does not start over. -/
theorem change_of_step {call : Call ElementName AttributeName} {answer : Answer}
    (h : r.step call = .ok (answer, r')) :
    r' = new ∧ call.startsOver ∨ Level.Change r.levels r'.levels ∧ r'.names = r.names := by
  cases call with
  | text value | raw value | doctype | nextId | internElement name | internAttribute name =>
    cases h
    exact .inr ⟨.top, rfl⟩
  | beginFragment =>
    cases h
    exact .inr ⟨.opened, rfl⟩
  | reset =>
    cases h
    exact .inl ⟨rfl, rfl⟩
  | valued name value =>
    obtain ⟨⟨o, s⟩, hs, he⟩ := of_map_eq_ok h
    obtain ⟨_, _, hs⟩ := of_bind_eq_ok hs
    cases hs
    cases he
    exact .inr ⟨.top, rfl⟩
  | boolean name =>
    obtain ⟨⟨o, s⟩, hs, he⟩ := of_map_eq_ok h
    obtain ⟨_, _, hs⟩ := of_bind_eq_ok hs
    cases hs
    cases he
    exact .inr ⟨.top, rfl⟩
  | openElement name =>
    obtain ⟨s, hs, he⟩ := of_map_eq_ok h
    obtain ⟨_, rfl⟩ := openElement_eq_ok hs
    cases he
    exact .inr ⟨.opened, rfl⟩
  | openWith name prepared args =>
    obtain ⟨s, hs, he⟩ := of_map_eq_ok h
    obtain ⟨_, _, t, hprepared, rfl⟩ := openElementWith_eq_ok hs
    obtain ⟨_, rfl⟩ := preparedAttributes_eq_ok _ hprepared
    cases he
    exact .inr ⟨.opened, rfl⟩
  | adopt name count =>
    obtain ⟨s, hs, he⟩ := of_map_eq_ok h
    obtain ⟨_, _, rfl⟩ := adopt_eq_ok hs
    cases he
    exact .inr ⟨.opened, rfl⟩
  | closeElement =>
    obtain ⟨⟨o, s⟩, hs, he⟩ := of_map_eq_ok h
    obtain ⟨_, parent, outer, _, houter, _, _, _, houter', hnames⟩ := closeElement_eq_ok hs
    cases he
    refine .inr ⟨?_, hnames⟩
    rw [levels, levels, houter, houter']
    exact .closed
  | endFragment =>
    obtain ⟨⟨o, s⟩, hs, he⟩ := of_map_eq_ok h
    obtain ⟨parent, outer, _, houter, _, _, houter', hnames⟩ := endFragment_eq_ok hs
    cases he
    refine .inr ⟨?_, hnames⟩
    rw [levels, levels, houter, houter']
    exact .closed
  | fragment args =>
    obtain ⟨⟨o, s⟩, hs, he⟩ := of_map_eq_ok h
    obtain ⟨_, hs⟩ := fragment_eq_ok hs
    obtain ⟨parent, outer, _, houter, _, _, houter', hnames⟩ := endFragment_eq_ok hs
    cases he
    cases houter
    refine .inr ⟨?_, hnames⟩
    rw [levels, levels, houter']
    exact .top
  | abortFragment =>
    obtain ⟨s, hs, he⟩ := of_map_eq_ok h
    obtain ⟨parent, outer, _, houter, rfl⟩ := abortFragment_eq_ok hs
    cases he
    refine .inr ⟨?_, rfl⟩
    rw [levels, levels, houter]
    exact .closed
  | finish =>
    obtain ⟨⟨t, s⟩, hs, he⟩ := of_map_eq_ok h
    obtain ⟨_, _, rfl, _⟩ := finish_eq_ok hs
    cases he
    exact .inl ⟨rfl, rfl⟩

/-- **What a granted request does to the levels and the names.** -/
theorem change_of_request {call : SpelledCall} {answer : Answer}
    (h : r.request call = .ok (answer, r')) :
    r' = new ∧ call.startsOver ∨
      Level.Change r.levels r'.levels ∧ r.names.Extends r'.names := by
  obtain ⟨result, names, hext, hrun⟩ := Lookup.call_local call r.names
  rw [request, hrun r rfl] at h
  cases result with
  | error e =>
    cases h
    exact .inr ⟨.top, hext⟩
  | ok found =>
    rcases change_of_step h with ⟨hnew, hover⟩ | ⟨hchange, hnames⟩
    · exact .inl ⟨hnew, Lookup.startsOver_eq (hrun r rfl) ▸ hover⟩
    · exact .inr ⟨hchange, hnames ▸ hext⟩

/-! ### Inside of a fragment -/

def inside? (depth : Nat) : Recorder → List SpelledCall → Option Recorder
  | r, [] => if depth < r.outer.length then some r else none
  | r, call :: calls =>
    if depth < r.outer.length then
      match r.request call with
      | .ok (_, r) => inside? depth r calls
      | .error _ => none
    else none

/-- The recorder after a fragment that is begun, gets some requests inside of it and is aborted. -/
def abortAfter? (r : Recorder) (inner : List SpelledCall) : Option Recorder := do
  let s ← inside? r.outer.length r.beginFragment inner
  let r' ← s.abortFragment.toOption
  if r'.outer.length = r.outer.length then some r' else none

/-- The requests begin a fragment and end with the abort that matches the beginning, and all of
them are granted. -/
def Aborts (r : Recorder) (segment : List SpelledCall) (r' : Recorder) : Prop :=
  ∃ inner : List SpelledCall, segment = .beginFragment :: inner ++ [.abortFragment] ∧
    r.abortAfter? inner = some r'

theorem lt_of_inside? {depth : Nat} {calls : List SpelledCall}
    (h : inside? depth r calls = some s) : depth < r.outer.length := by
  cases calls with
  | nil =>
    rw [inside?] at h
    split at h
    · assumption
    · cases h
  | cons call calls =>
    rw [inside?] at h
    split at h
    · assumption
    · cases h

theorem inside?_nil {depth : Nat} (h : inside? depth r [] = some s) : s = r := by
  rw [inside?] at h
  split at h
  · cases h
    rfl
  · cases h

theorem inside?_cons {depth : Nat} {call : SpelledCall} {calls : List SpelledCall}
    (h : inside? depth r (call :: calls) = some s) :
    ∃ answer t, r.request call = .ok (answer, t) ∧ inside? depth t calls = some s := by
  rw [inside?] at h
  split at h
  · split at h
    · rename_i answer t hr
      exact ⟨answer, t, hr, h⟩
    · cases h
  · cases h

theorem abortAfter?_eq_some {inner : List SpelledCall} (h : r.abortAfter? inner = some r') :
    ∃ s, inside? r.outer.length r.beginFragment inner = some s ∧ s.abortFragment = .ok r' ∧
      r'.outer.length = r.outer.length := by
  obtain ⟨s, hs, h⟩ := Option.bind_eq_some_iff.1 h
  obtain ⟨t, ht, h⟩ := Option.bind_eq_some_iff.1 h
  split at h
  · rename_i hlength
    cases h
    refine ⟨s, hs, ?_, hlength⟩
    cases habort : s.abortFragment with
    | error fault => rw [habort] at ht; cases ht
    | ok t => rw [habort] at ht; cases ht; rfl
  · cases h

/-- The levels and the names of `r` are still there in `s`, which has more levels. -/
structure Over (r s : Recorder) : Prop where
  levels : r.levels <:+ s.levels
  deeper : r.outer.length < s.outer.length
  names : r.names.Extends s.names

theorem over_beginFragment (r : Recorder) : r.Over r.beginFragment :=
  ⟨List.suffix_cons _ _, Nat.lt_succ_self _, .refl _⟩

/-- A request inside of a fragment leaves the levels around it alone. -/
theorem Over.request (h : r.Over s) {call : SpelledCall} {answer : Answer} {t : Recorder}
    (hr : s.request call = .ok (answer, t)) (ht : r.outer.length < t.outer.length) : r.Over t := by
  rcases change_of_request hr with ⟨rfl, _⟩ | ⟨hchange, hnames⟩
  · cases ht
  · exact ⟨hchange.suffix h.levels (Nat.succ_lt_succ h.deeper) (Nat.succ_lt_succ ht), ht,
      h.names.trans hnames⟩

/-- **All requests inside of a fragment leave the levels around it alone.** -/
theorem Over.inside (h : r.Over s) {calls : List SpelledCall} {t : Recorder}
    (hcalls : inside? r.outer.length s calls = some t) : r.Over t := by
  induction calls generalizing s with
  | nil =>
    rw [inside?_nil hcalls]
    exact h
  | cons call calls ih =>
    obtain ⟨answer, u, hr, hrest⟩ := inside?_cons hcalls
    exact ih (h.request hr (lt_of_inside? hrest)) hrest

/-! ### Rolling back -/

/-- **An abort cuts the words and the literals off** at the offsets that were noted down when the
fragment was begun, and drops the entries behind those of the levels around it. -/
theorem Reaches.abortFragment_cuts {calls : List SpelledCall} (hr : Reaches calls r)
    (h : r.abortFragment = .ok r') :
    r'.words = r.words.extract 0 r.current.start ∧ r.pool = r'.pool ++ r.current.pool ∧
      r'.pool.utf8ByteSize = r.current.poolStart ∧
      r.deferred = r'.deferred ++ r.current.entries.toList := by
  obtain ⟨parent, outer, hscope, houter, rfl⟩ := abortFragment_eq_ok h
  obtain ⟨m, ⟨_, k, hk⟩, _⟩ := hr.mirrors
  generalize hsheets : m.current :: m.outer = sheets at hk
  rw [houter] at hk
  cases hk with
  | @cons _ _ sheet sheets k blocks below _ _ holds =>
    obtain ⟨hwords, hpool⟩ := below.ends
    refine ⟨?_, ?_, ?_, ?_⟩
    · show Level.wordsAll (parent :: outer) =
        (Level.wordsAll (r.current :: r.outer)).extract 0 r.current.start
      rw [houter, Level.wordsAll_cons r.current, holds.start, ← hwords, Array.append_assoc,
        Array.extract_append_left, Array.extract_size]
    · show Level.poolAll (r.current :: r.outer) = Level.poolAll (parent :: outer) ++ _
      rw [houter, Level.poolAll_cons]
    · show (Level.poolAll (parent :: outer)).utf8ByteSize = _
      rw [hpool, holds.poolStart]
    · show Level.entriesAll (r.current :: r.outer) = Level.entriesAll (parent :: outer) ++ _
      rw [houter, Level.entriesAll_cons]

/-- The recorder `r'` is `r`, apart from further names, the counters and the ids. -/
structure Rollback (r r' : Recorder) : Prop where
  /-- The innermost level, with its words, its text and its entries. -/
  current : r'.current = r.current
  /-- The levels around it. -/
  outer : r'.outer = r.outer
  /-- All words that are recorded so far. -/
  words : r'.words = r.words
  /-- All literals that are recorded so far. -/
  pool : r'.pool = r.pool
  deferred : r'.deferred = r.deferred
  /-- A code keeps its text. -/
  names : r.names.Extends r'.names

/-- **An aborted fragment is rolled back.** -/
theorem Aborts.rollback {segment : List SpelledCall} (h : r.Aborts segment r') :
    r.Rollback r' := by
  obtain ⟨inner, _, h⟩ := h
  obtain ⟨s, hinner, habort, hlength⟩ := abortAfter?_eq_some h
  have hover := (over_beginFragment r).inside hinner
  obtain ⟨parent, outer, _, houter, rfl⟩ := abortFragment_eq_ok habort
  have hlevels : r.levels <:+ s.outer := by
    rcases List.suffix_cons_iff.1 hover.levels with heq | hsuffix
    · have hlt := hover.deeper
      have hsame : r.levels.length = s.levels.length := congrArg List.length heq
      rw [levels, levels, List.length_cons, List.length_cons] at hsame
      omega
    · exact hsuffix
  have heq : r.levels = s.outer := by
    refine hlevels.eq_of_length ?_
    rw [houter, levels, List.length_cons, List.length_cons]
    exact congrArg Nat.succ hlength.symm
  rw [houter, levels] at heq
  cases heq
  exact ⟨rfl, rfl, rfl, rfl, rfl, hover.names⟩

/-! ### The requests of an aborted fragment -/

theorem requestEach_append {as bs : List SpelledCall} {answers answers' : List Answer}
    (h : r.requestEach as = .ok (answers, s)) (h' : s.requestEach bs = .ok (answers', r')) :
    r.requestEach (as ++ bs) = .ok (answers ++ answers', r') := by
  induction as generalizing r answers with
  | nil =>
    cases h
    exact h'
  | cons call as ih =>
    obtain ⟨answer, t, rest, ht, hrest, rfl⟩ := requestEach_cons_eq_ok.1 h
    exact requestEach_cons_eq_ok.2 ⟨answer, t, rest ++ answers', ht, ih hrest, rfl⟩

theorem exists_requestEach_of_inside? {depth : Nat} {calls : List SpelledCall}
    (h : inside? depth r calls = some s) : ∃ answers, r.requestEach calls = .ok (answers, s) := by
  induction calls generalizing r with
  | nil =>
    rw [inside?_nil h]
    exact ⟨[], rfl⟩
  | cons call calls ih =>
    obtain ⟨answer, t, hr, hrest⟩ := inside?_cons h
    obtain ⟨answers, hanswers⟩ := ih hrest
    exact ⟨answer :: answers, requestEach_cons_eq_ok.2 ⟨answer, t, answers, hr, hanswers, rfl⟩⟩

theorem Aborts.reaches {before segment : List SpelledCall} (h : r.Aborts segment r')
    (hr : Reaches before r) : Reaches (before ++ segment) r' := by
  obtain ⟨inner, rfl, h⟩ := h
  obtain ⟨s, hinner, habort, _⟩ := abortAfter?_eq_some h
  obtain ⟨answers, hbefore⟩ := hr
  obtain ⟨answers', hanswers⟩ := exists_requestEach_of_inside? hinner
  have hbegin : r.requestEach [.beginFragment] = .ok ([.done], r.beginFragment) := rfl
  have hend : s.requestEach [.abortFragment] = .ok ([.done], r') := by
    have hrequest : s.request .abortFragment = .ok (.done, r') :=
      congrArg (Except.map Answer.ofRecorder) habort
    rw [requestEach, hrequest]
    rfl
  exact ⟨_, requestEach_append hbefore
    (requestEach_append (requestEach_append hbegin hanswers) hend)⟩

end Recorder

end HtmlTape
