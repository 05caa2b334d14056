import HtmlTape.Proofs.Recorder.Aborted
import HtmlTape.Proofs.Recorder.Checks

/-!
# What drafts allow

A draft follows every call that is in its place, also one that no recorder would grant: one with a
name that is not known, or one that closes a void element with children.  `Draft.Allows` says which
calls are granted, as far as that is a matter of the draft: tokens claim the last entries wherever
these stand, so the offsets in tokens do not matter (`Call.unplaced`).

`Draft.Takes` says that a whole course is allowed and where it leads.
-/

namespace HtmlTape

variable {E A : Type}

/-! ### Calls but for the offsets in them -/

def Call.mapArgs (f : List Token → List Token) : Call E A → Call E A
  | .openWith name prepared args => .openWith name prepared (f args)
  | .fragment args => .fragment (f args)
  | call => call

def Call.args : Call E A → List Token
  | .openWith _ _ args => args
  | .fragment args => args
  | _ => []

def Token.unplaced : Token → Token
  | noop => .noop
  | entry kind _ => .entry kind 0

def Call.unplaced (call : Call E A) : Call E A := call.mapArgs (List.map Token.unplaced)

/-- The tokens with other offsets, one after another. -/
def Token.placeAll : List Nat → List Token → List Token
  | records, .noop :: rest => .noop :: placeAll records rest
  | record :: records, .entry kind _ :: rest => .entry kind record :: placeAll records rest
  | _, args => args

theorem Draft.claimed_unplaced (args : List Token) :
    claimed (args.map Token.unplaced) = claimed args := by
  induction args with
  | nil => rfl
  | cons token rest ih =>
    cases token with
    | noop => exact ih
    | entry kind record => exact congrArg Nat.succ ih

theorem Token.unplaced_placeAll (args : List Token) : ∀ records : List Nat,
    (placeAll records args).map unplaced = args.map unplaced := by
  induction args with
  | nil => intro records; cases records <;> rfl
  | cons token rest ih =>
    intro records
    cases token with
    | noop => exact congrArg (List.cons _) (ih records)
    | entry kind old =>
      cases records with
      | nil => rfl
      | cons record records => exact congrArg (List.cons _) (ih records)

theorem Token.filterMap_placeAll (args : List Token) : ∀ records : List Nat,
    records.length = Draft.claimed args → (placeAll records args).filterMap record? = records := by
  induction args with
  | nil =>
    intro records h
    obtain rfl := List.length_eq_zero_iff.1 h
    rfl
  | cons token rest ih =>
    intro records h
    cases token with
    | noop => exact ih records h
    | entry kind old =>
      obtain ⟨record, records, rfl⟩ := List.exists_cons_of_length_eq_add_one h
      exact congrArg (List.cons _) (ih records (Nat.succ.inj h))

namespace Call

theorem unplaced_mapArgs (call : Call E A) {f : List Token → List Token}
    (hf : ∀ args, (f args).map Token.unplaced = args.map Token.unplaced) :
    (call.mapArgs f).unplaced = call.unplaced := by
  cases call with
  | openWith name prepared args => exact congrArg (Call.openWith name prepared) (hf args)
  | fragment args => exact congrArg Call.fragment (hf args)
  | _ => rfl

theorem args_mapArgs (call : Call E A) {f : List Token → List Token} (hf : f [] = []) :
    (call.mapArgs f).args = f call.args := by
  cases call with
  | openWith | fragment => rfl
  | _ => exact hf.symm

theorem claimed_args_unplaced (call : Call E A) :
    Draft.claimed call.unplaced.args = Draft.claimed call.args := by
  rw [unplaced, args_mapArgs _ rfl, Draft.claimed_unplaced]

theorem startsOver_unplaced (call : Call E A) : call.unplaced.startsOver = call.startsOver := by
  cases call <;> rfl

/-! ### Calls without arguments -/

theorem unplaced_of_args_eq_nil {call : Call E A} (h : call.args = []) : call.unplaced = call := by
  cases call with
  | openWith | fragment =>
    cases h
    rfl
  | _ => rfl

/-- Calls without arguments are told apart without offsets. -/
theorem eq_of_unplaced_eq {call call' : Call E A} (h : call'.unplaced = call.unplaced)
    (hargs : call.args = []) : call' = call := by
  have hargs' : call'.args = [] := by
    have hmap := congrArg Call.args h
    rwa [unplaced, args_mapArgs _ rfl, unplaced, args_mapArgs _ rfl, hargs, List.map_nil,
      List.map_eq_nil_iff] at hmap
  rw [← unplaced_of_args_eq_nil hargs', h, unplaced_of_args_eq_nil hargs]

theorem map_eq_of_unplaced_eq {calls : List (Call E A)} (hargs : ∀ call ∈ calls, call.args = []) :
    ∀ {calls' : List (Call E A)}, calls'.map unplaced = calls.map unplaced → calls' = calls := by
  induction calls with
  | nil => exact fun h => List.map_eq_nil_iff.1 h
  | cons call calls ih =>
    intro calls' h
    obtain ⟨hcall, hcalls⟩ := List.forall_mem_cons.1 hargs
    obtain ⟨call', rest, rfl, hfirst, hrest⟩ := List.map_eq_cons_iff.1 h
    rw [eq_of_unplaced_eq hfirst hcall, ih hcalls hrest]

end Call

theorem Call.args_bare (call : Call E A) : call.bare.args = call.args := by
  cases call <;> rfl

namespace Lookup

theorem args_eq {call : SpelledCall} {found : Call ElementName AttributeName} {r r' : Recorder}
    (h : (Lookup.call call).run r = (.ok found, r')) : found.args = call.args := by
  rw [← found.args_bare, bare_eq h, call.args_bare]

theorem call_mapArgs (f : List Token → List Token) (call : SpelledCall) :
    Lookup.call (call.mapArgs f) = Call.mapArgs f <$> Lookup.call call := by
  cases call with
  | openWith | valued | boolean | openElement | adopt | internElement | internAttribute =>
    simp only [Call.mapArgs, Lookup.call, map_bind, map_pure]
  | _ => rfl

/-- **Names are looked up whatever the arguments are.** -/
theorem run_mapArgs (f : List Token → List Token) (call : SpelledCall) (r : Recorder) :
    (Lookup.call (call.mapArgs f)).run r =
      match (Lookup.call call).run r with
      | (.ok found, r) => (.ok (found.mapArgs f), r)
      | (.error e, r) => (.error e, r) := by
  rw [call_mapArgs, map_eq_pure_bind]
  cases h : (Lookup.call call).run r with
  | mk result s =>
    cases result with
    | error e => exact run_bind_error _ h
    | ok found => exact run_bind_ok _ h

end Lookup

/-! ### What a draft allows -/

namespace Draft

/-- The draft allows a call with names as codes, wherever its arguments stand. -/
def Allows (m : Draft String) : Call ElementName AttributeName → Prop
  | .valued name _ | .boolean name => (m.names.attributeText? name).isSome
  | .openElement name => (m.names.elementText? name).isSome
  | .openWith name prepared args => claimed args ≤ m.current.items.length ∧
    (m.names.elementText? name).isSome ∧
    ∀ p ∈ prepared, (m.names.attributeText? p.1).isSome
  | .adopt name count =>
    count ≤ m.current.items.length ∧ (m.names.elementText? name).isSome
  | .closeElement => ∃ name, m.current.scope = .element name ∧
    (name.kind.isVoid → ∀ item ∈ Item.expandedAll m.current.items, item.isAttribute)
  | .fragment args => claimed args ≤ m.current.items.length
  | .endFragment | .abortFragment => m.current.scope = .fragment
  | .finish => m.outer = [] ∧
    ∀ item ∈ Item.expandedAll m.current.items, item.isAttribute = false
  | .text _ | .raw _ | .doctype | .beginFragment | .reset | .nextId | .internElement _
  | .internAttribute _ => True

/-- The draft allows a request: a call with spelled names, of which one may be refused. -/
def AllowsRequest (m : Draft String) (call : SpelledCall) : Prop :=
  match (Lookup.call call).run { Recorder.new with names := m.names } with
  | (.ok call, r) => Allows { m with names := r.names } call
  | (.error _, _) => True

variable {m m' m'' : Draft String} {calls calls' : List SpelledCall}

theorem allows_unplaced (m : Draft String) (call : Call ElementName AttributeName) :
    m.Allows call.unplaced ↔ m.Allows call := by
  cases call with
  | openWith name prepared args =>
    show claimed (args.map Token.unplaced) ≤ _ ∧ _ ↔ _
    rw [claimed_unplaced]
    rfl
  | fragment args =>
    show claimed (args.map Token.unplaced) ≤ _ ↔ _
    rw [claimed_unplaced]
    rfl
  | _ => exact Iff.rfl

theorem step_unplaced (m : Draft String) (call : Call ElementName AttributeName) :
    m.step call.unplaced = m.step call := by
  cases call with
  | openWith name prepared args =>
    show m.enter _ _ (claimed (args.map Token.unplaced)) = _
    rw [claimed_unplaced]
    rfl
  | fragment args =>
    show (m.enter _ _ (claimed (args.map Token.unplaced))).bind _ = _
    rw [claimed_unplaced]
    rfl
  | _ => rfl

theorem request_unplaced (m : Draft String) (call : SpelledCall) :
    m.request call.unplaced = m.request call := by
  rw [request, request, Call.unplaced, Lookup.run_mapArgs]
  cases (Lookup.call call).run { Recorder.new with names := m.names } with
  | mk result s =>
    cases result with
    | error e => rfl
    | ok found => exact step_unplaced _ found

theorem allowsRequest_unplaced (m : Draft String) (call : SpelledCall) :
    m.AllowsRequest call.unplaced ↔ m.AllowsRequest call := by
  rw [AllowsRequest, AllowsRequest, Call.unplaced, Lookup.run_mapArgs]
  cases (Lookup.call call).run { Recorder.new with names := m.names } with
  | mk result s =>
    cases result with
    | error e => exact Iff.rfl
    | ok found => exact allows_unplaced _ found

/-! ### Courses that a draft takes -/

/-- All requests are allowed in turn and lead from the one draft to the other. -/
inductive Takes : Draft String → List SpelledCall → Draft String → Prop where
  | nil (m : Draft String) : Takes m [] m
  | cons {m m' m'' : Draft String} {call : SpelledCall} {calls : List SpelledCall} :
    m.AllowsRequest call → m.request call = some m' → Takes m' calls m'' →
    Takes m (call :: calls) m''

namespace Takes

theorem of_run {call : SpelledCall} {found : Call ElementName AttributeName} {r : Recorder}
    (hrun : (Lookup.call call).run { Recorder.new with names := m.names } = (.ok found, r))
    (hallow : Allows { m with names := r.names } found)
    (hstep : step { m with names := r.names } found = some m') : m.Takes [call] m' := by
  refine .cons ?_ ?_ (.nil m')
  · rw [AllowsRequest, hrun]
    exact hallow
  · rw [request, hrun]
    exact hstep

theorem append (h : m.Takes calls m') (h' : m'.Takes calls' m'') :
    m.Takes (calls ++ calls') m'' := by
  induction h with
  | nil => exact h'
  | cons hallow hreq _ ih => exact .cons hallow hreq (ih h')

theorem requestEach (h : m.Takes calls m') : m.requestEach calls = some m' := by
  induction h with
  | nil => rfl
  | cons _ hreq _ ih =>
    rw [Draft.requestEach, List.foldlM_cons, hreq]
    exact ih

theorem split (h : m.Takes (calls ++ calls') m'') :
    ∃ m', m.Takes calls m' ∧ m'.Takes calls' m'' := by
  induction calls generalizing m with
  | nil => exact ⟨m, .nil m, h⟩
  | cons call calls ih =>
    cases h with
    | cons hallow hreq hrest =>
      obtain ⟨m', hcalls, hrest⟩ := ih hrest
      exact ⟨m', .cons hallow hreq hcalls, hrest⟩

/-- A course may have any offsets in it. -/
theorem congr (h : m.Takes calls m') (hsame : calls'.map Call.unplaced = calls.map Call.unplaced) :
    m.Takes calls' m' := by
  induction h generalizing calls' with
  | nil =>
    obtain rfl := List.map_eq_nil_iff.1 hsame
    exact .nil _
  | @cons m m' m'' call calls hallow hreq _ ih =>
    obtain ⟨call', rest, rfl, hcall, hrest⟩ := List.map_eq_cons_iff.1 hsame
    have hallow' : m.AllowsRequest call' := by
      rwa [← allowsRequest_unplaced, hcall, allowsRequest_unplaced]
    have hreq' : m.request call' = some m' := by
      rw [← request_unplaced, hcall, request_unplaced, hreq]
    exact .cons hallow' hreq' (ih hrest)

end Takes

end Draft

end HtmlTape
