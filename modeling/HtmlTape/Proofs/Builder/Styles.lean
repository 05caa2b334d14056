import HtmlTape.Builder.Basic
import HtmlTape.Proofs.Recorder.Granted

/-!
# Styles of recording

A document can be recorded in three styles.  Eagerly, the arguments of an element are recorded
first, and the element claims them by their tokens; in order, an element is opened, its entries are
recorded and it is closed; and an element may adopt as many entries as were recorded before it.  The
three make different calls, and the words they leave behind differ.

What they accept is the same, and it is a property of the document alone (`Plan.ProperAll`): names
are known, void elements own attributes only, and no attribute is left outside of the elements.
They also record the same entries, with the same literals at the same places of the pool
(`Plan.grants_buildAll`, `Plan.grants_after_callsAll`).  So the bytecode is the same
(`Plan.record_agrees`).
-/

namespace HtmlTape

open Outcome (Grants)

/-! ### Plans -/

/-- What is to be recorded: a leaf, an element or a fragment with its arguments, or nothing. -/
inductive Plan where
  | noop
  | mark (mark : Mark String)
  | element (name : ElementName) (args : List Plan)
  | fragment (args : List Plan)

mutual

/-- The items that stand for a plan. -/
def Plan.items : Plan → List (Item String)
  | .noop => []
  | .mark m => [.mark m]
  | .element name args => [.element name (Plan.itemsAll args)]
  | .fragment args => [.fragment (Plan.itemsAll args)]

def Plan.itemsAll : List Plan → List (Item String)
  | [] => []
  | plan :: rest => plan.items ++ Plan.itemsAll rest

end

mutual

/-- The names of a plan are known, and its void elements own attributes only. -/
def Plan.Proper (names : Names) : Plan → Prop
  | .noop => True
  | .mark m => m.Known names
  | .element name args => (names.elementText? name).isSome ∧ Plan.ProperAll names args ∧
    (name.kind.isVoid → ∀ item ∈ Item.expandedAll (Plan.itemsAll args), item.isAttribute)
  | .fragment args => Plan.ProperAll names args

def Plan.ProperAll (names : Names) : List Plan → Prop
  | [] => True
  | plan :: rest => plan.Proper names ∧ Plan.ProperAll names rest

end

/-! ### Recording a plan -/

def Mark.build : Mark String → Build Token
  | text value => Build.text value
  | raw value => Build.raw value
  | doctype => Build.doctype
  | valued name value => Build.attr name value
  | boolean name => Build.boolAttr name

mutual

/-- Record a plan eagerly: the arguments first, and then the element that claims them. -/
def Plan.build : Plan → Build Token
  | .noop => return .noop
  | .mark m => m.build
  | .element name args => do Build.element name (← Plan.buildAll args)
  | .fragment args => do Build.flatten (← Plan.buildAll args)

def Plan.buildAll : List Plan → Build (List Token)
  | [] => return []
  | plan :: rest => do
    let token ← plan.build
    let tokens ← Plan.buildAll rest
    return token :: tokens

end

/-- The calls for an element around those for its entries: the element is opened before them, or it
adopts them, `count` in number, after them. -/
def Plan.callsAround (adopting : Bool) (name : ElementName) (count : Nat)
    (calls : List (Call ElementName AttributeName)) : List (Call ElementName AttributeName) :=
  if adopting then calls ++ [.adopt name count, .closeElement]
  else [.openElement name] ++ calls ++ [.closeElement]

mutual

/-- The calls for a plan in the order of the document, or with elements that adopt their entries. -/
def Plan.calls (adopting : Bool) : Plan → List (Call ElementName AttributeName)
  | .noop => []
  | .mark m => [m.call]
  | .element name args =>
    Plan.callsAround adopting name (Plan.itemsAll args).length (Plan.callsAll adopting args)
  | .fragment args => [.beginFragment] ++ Plan.callsAll adopting args ++ [.endFragment]

def Plan.callsAll (adopting : Bool) : List Plan → List (Call ElementName AttributeName)
  | [] => []
  | plan :: rest => plan.calls adopting ++ Plan.callsAll adopting rest

end

def Recorder.after (r : Recorder) (calls : List (Call ElementName AttributeName)) :
    Except Fault Recorder :=
  (r.run calls).map (·.2)

/-- A style of recording. -/
inductive Style where
  | eager
  | inOrder
  | adopting
deriving DecidableEq

def Style.recordAll (style : Style) (plans : List Plan) (r : Recorder) : Except Fault Recorder :=
  match style with
  | eager => (Plan.buildAll plans r).map (·.2)
  | inOrder => r.after (Plan.callsAll false plans)
  | adopting => r.after (Plan.callsAll true plans)

def Style.record (style : Style) (plans : List Plan) (r : Recorder) : Except Fault Recording := do
  let r ← style.recordAll plans r
  let (t, _) ← r.finish
  return t

namespace Recorder

/-! ### Courses of calls -/

theorem after_append (r : Recorder) (as bs : List (Call ElementName AttributeName)) :
    r.after (as ++ bs) = r.after as >>= fun r => r.after bs := by
  induction as generalizing r with
  | nil => rfl
  | cons call as ih =>
    have hcons : ∀ calls, r.after (call :: calls) = r.step call >>= fun p => p.2.after calls := by
      intro calls
      rw [after, run]
      cases r.step call with
      | error fault => rfl
      | ok p =>
        show Except.map _ (p.2.run calls >>= _) = (p.2.run calls).map _
        cases p.2.run calls <;> rfl
    rw [List.cons_append, hcons, hcons]
    cases r.step call with
    | error fault => rfl
    | ok p => exact ih p.2

theorem after_singleton (r : Recorder) (call : Call ElementName AttributeName) :
    r.after [call] = (r.step call).map (·.2) := by
  rw [after, run]
  cases r.step call <;> rfl

theorem grants_after_singleton {r : Recorder} {call : Call ElementName AttributeName} {p : Prop}
    {post : Recorder → Prop} (h : Grants (r.step call) p fun a => post a.2) :
    Grants (r.after [call]) p post := by
  rw [after_singleton]
  exact h.map

theorem build_mark (r : Recorder) (mark : Mark String) : ∃ kind, mark.build r =
    (r.recordMark mark).map fun p => (.entry kind p.1, p.2) := by
  cases mark <;> exact ⟨_, rfl⟩

end Recorder

/-! ### What the styles grant -/

namespace Plan

variable {r r₁ : Recorder} {m : Draft Quote} {records : List Nat} {items : List (Item String)}

theorem grants_element (h : r.Records m r₁ records items) (name : ElementName) {args : List Token}
    (hargs : args.filterMap Token.record? = records) :
    Grants (Build.element name args r₁) ((r.names.elementText? name).isSome ∧
        (name.kind.isVoid → ∀ item ∈ Item.expandedAll items, item.isAttribute))
      fun p => r.Records m p.2 p.1.record?.toList [.element name items] := by
  have hopen : Grants ((r₁.openElementWith name [] args).map fun r => ((), r))
      (r.names.elementText? name).isSome fun p => r.Opened m p.2 (.element name) items :=
    (h.grants_openElementWith name hargs).map
  exact hopen.bind fun p hp => hp.grants_closeElement.map

mutual

/-- **Recording a plan eagerly** is granted if the plan is proper, and its items are recorded. -/
theorem grants_build : ∀ (plan : Plan) {r : Recorder} {m : Draft Quote}, r.Mirrors m →
    Grants (plan.build r) (plan.Proper r.names) fun p =>
      r.Records m p.2 p.1.record?.toList plan.items
  | .noop, r, m, h => by
    rw [build, Proper, Plan.items]
    exact .ok (.refl h)
  | .mark leaf, r, m, h => by
    rw [build, Proper, Plan.items]
    obtain ⟨kind, hbuild⟩ := Recorder.build_mark r leaf
    rw [hbuild]
    exact (Recorder.grants_recordMark h leaf).map
  | .element name args, r, m, h => by
    rw [build, Proper, Plan.items]
    refine Grants.imp ((grants_buildAll args h).bind fun p hp => grants_element hp name rfl) ?_
      fun _ h => h
    exact and_left_comm
  | .fragment args, r, m, h => by
    rw [build, Proper, Plan.items]
    refine Grants.imp ((grants_buildAll args h).bind fun p hp =>
      (hp.grants_fragment rfl).map) ?_ fun _ h => h
    exact Iff.of_eq (and_true _)

theorem grants_buildAll : ∀ (plans : List Plan) {r : Recorder} {m : Draft Quote}, r.Mirrors m →
    Grants (buildAll plans r) (ProperAll r.names plans) fun p =>
      r.Records m p.2 (p.1.filterMap Token.record?) (itemsAll plans)
  | [], r, m, h => by
    rw [buildAll, ProperAll, itemsAll]
    exact .ok (.refl h)
  | plan :: rest, r, m, h => by
    rw [buildAll, ProperAll, itemsAll]
    refine (grants_build plan h).bind fun p hp => ?_
    have hrest := grants_buildAll rest hp.adds.mirrors
    rw [hp.names] at hrest
    refine Grants.imp (hrest.bind fun q hq => .ok ?_) (Iff.of_eq (and_true _)) fun _ h => h
    have hrecords : (p.1 :: q.1).filterMap Token.record? =
        p.1.record?.toList ++ q.1.filterMap Token.record? := by
      rw [List.filterMap_cons]
      cases p.1.record? <;> rfl
    show r.Records m q.2 ((p.1 :: q.1).filterMap Token.record?) _
    rw [hrecords]
    exact hp.append (hp.names ▸ hq)

end

/-- Calls between one that opens a level and one that closes it. -/
theorem grants_around {first last : Call ElementName AttributeName}
    {inner : List (Call ElementName AttributeName)} {scope : Scope} {item : Item String}
    {p s : Prop} {q : Names → Prop}
    (hfirst : Grants (r.step first) p fun a => r.Opened m a.2 scope [])
    (hinner : ∀ {r : Recorder} {m : Draft Quote}, r.Mirrors m →
      Grants (r.after inner) (q r.names) fun r' => ∃ records, r.Records m r' records items)
    (hlast : ∀ r₁ : Recorder, r.Opened m r₁ scope items →
      Grants (r₁.step last) s fun a => ∃ records, r.Records m a.2 records [item]) :
    Grants (r.after ([first] ++ inner ++ [last])) ((p ∧ q r.names) ∧ s) fun r' =>
      ∃ records, r.Records m r' records [item] := by
  have hopened : Grants (r.after ([first] ++ inner)) (p ∧ q r.names) fun r₁ =>
      r.Opened m r₁ scope items := by
    have hopens : Grants (r.after [first]) p fun r₁ => r.Opened m r₁ scope [] :=
      Recorder.grants_after_singleton hfirst
    rw [Recorder.after_append]
    refine hopens.bind fun r₁ h₁ => ?_
    rw [← h₁.names]
    refine (hinner h₁.mirrors).imp Iff.rfl ?_
    rintro r₂ ⟨records, h₂⟩
    exact h₁.record h₂
  rw [Recorder.after_append]
  exact hopened.bind fun r₁ h₁ => Recorder.grants_after_singleton (hlast r₁ h₁)

mutual

/-- **Recording a plan by calls** is granted if the plan is proper, and its items are recorded. -/
theorem grants_after_calls (adopting : Bool) : ∀ (plan : Plan) {r : Recorder} {m : Draft Quote},
    r.Mirrors m → Grants (r.after (plan.calls adopting)) (plan.Proper r.names) fun r' =>
      ∃ records, r.Records m r' records plan.items
  | .noop, r, m, h => by
    rw [calls, Proper, Plan.items]
    exact .ok ⟨[], .refl h⟩
  | .mark leaf, r, m, h => by
    rw [calls, Proper, Plan.items]
    refine Recorder.grants_after_singleton ?_
    rw [Recorder.step_markCall]
    exact Grants.map ((Recorder.grants_recordMark h leaf).imp Iff.rfl fun _ h => ⟨_, h⟩)
  | .element name args, r, m, h => by
    rw [calls, Proper, Plan.items]
    have hlast : ∀ r₁ : Recorder, r.Opened m r₁ (.element name) (itemsAll args) →
        Grants (r₁.step .closeElement)
          (name.kind.isVoid → ∀ item ∈ Item.expandedAll (itemsAll args), item.isAttribute)
          fun a => ∃ records, r.Records m a.2 records [.element name (itemsAll args)] :=
      fun r₁ h₁ => Grants.map (h₁.grants_closeElement.imp Iff.rfl fun _ h => ⟨_, h⟩)
    cases adopting with
    | false =>
      have hfirst : Grants (r.step (.openElement name)) (r.names.elementText? name).isSome
          fun a => r.Opened m a.2 (.element name) [] :=
        (Recorder.grants_openElement h name).map
      have hinner := grants_around (q := (ProperAll · args)) hfirst
        (grants_after_callsAll false args) hlast
      exact hinner.imp and_assoc fun _ h => h
    | true =>
      have hcalls : callsAround true name (itemsAll args).length (callsAll true args) =
          callsAll true args ++ ([.adopt name (itemsAll args).length] ++ [.closeElement]) := rfl
      rw [hcalls, Recorder.after_append]
      refine Grants.imp ((grants_after_callsAll true args h).bind ?_) and_left_comm fun _ h => h
      rintro r₁ ⟨records, h₁⟩
      have hadopt : Grants (r₁.step (.adopt name (itemsAll args).length))
          (r.names.elementText? name).isSome fun a =>
            r.Opened m a.2 (.element name) (itemsAll args) :=
        (h₁.grants_adopt name).map
      rw [Recorder.after_append]
      exact (Recorder.grants_after_singleton hadopt).bind fun r₂ h₂ =>
        Recorder.grants_after_singleton (hlast r₂ h₂)
  | .fragment args, r, m, h => by
    rw [calls, Proper, Plan.items]
    have hfirst : Grants (r.step .beginFragment) True fun a => r.Opened m a.2 .fragment [] :=
      .ok (Recorder.opened_beginFragment h)
    have hlast : ∀ r₁ : Recorder, r.Opened m r₁ .fragment (itemsAll args) →
        Grants (r₁.step .endFragment) True fun a =>
          ∃ records, r.Records m a.2 records [.fragment (itemsAll args)] := fun r₁ h₁ =>
      Grants.map (h₁.grants_endFragment.imp Iff.rfl fun _ h => ⟨_, h⟩)
    have hinner := grants_around (q := (ProperAll · args)) hfirst
      (grants_after_callsAll adopting args) hlast
    refine hinner.imp ?_ fun _ h => h
    rw [true_and, and_true]

theorem grants_after_callsAll (adopting : Bool) : ∀ (plans : List Plan) {r : Recorder}
    {m : Draft Quote}, r.Mirrors m →
    Grants (r.after (callsAll adopting plans)) (ProperAll r.names plans) fun r' =>
      ∃ records, r.Records m r' records (itemsAll plans)
  | [], r, m, h => by
    rw [callsAll, ProperAll, itemsAll]
    exact .ok ⟨[], .refl h⟩
  | plan :: rest, r, m, h => by
    rw [callsAll, ProperAll, itemsAll, Recorder.after_append]
    refine (grants_after_calls adopting plan h).bind ?_
    rintro r₁ ⟨records, h₁⟩
    rw [← h₁.names]
    refine (grants_after_callsAll adopting rest h₁.adds.mirrors).imp Iff.rfl ?_
    rintro r₂ ⟨records', h₂⟩
    exact ⟨_, h₁.append h₂⟩

end

/-- **All styles accept the same plans and record the same items.** -/
theorem grants_recordAll (style : Style) (plans : List Plan) (h : r.Mirrors m) :
    Grants (style.recordAll plans r) (ProperAll r.names plans) fun r' =>
      ∃ records, r.Records m r' records (itemsAll plans) := by
  cases style with
  | eager => exact Grants.map ((grants_buildAll plans h).imp Iff.rfl fun _ h => ⟨_, h⟩)
  | inOrder => exact grants_after_callsAll false plans h
  | adopting => exact grants_after_callsAll true plans h

end Plan

/-! ### Documents -/

/-- Nothing is recorded yet; names may be known. -/
def Recorder.Blank (r : Recorder) : Prop := r.current = Level.root ∧ r.outer = []

/-- The document of items whose texts come one after another. -/
def Document.ofItems (items : List (Item String)) (names : Names) : Document where
  code := (Instruction.allWords
    (Tree.instructionsAll (Item.treesAll (Item.placeAll 0 items)))).toArray
  pool := Item.textAll items
  names := names

namespace Recorder

variable {r r₁ r₂ : Recorder} {records : List Nat} {items : List (Item String)} {t : Recording}

theorem Blank.mirrors (h : r.Blank) : r.Mirrors ⟨⟨.root, []⟩, [], r.names⟩ :=
  (mirrors_blank r.names).congr h.1 h.2 rfl

/-- **The document of the recorded items.** -/
theorem Records.compile (hr : r.Blank) (h : r.Records ⟨⟨.root, []⟩, [], r.names⟩ r₁ records items)
    (hfinish : r₁.finish = .ok (t, r₂)) : t.compile = .ok (.ofItems items r.names) := by
  have hcompile := h.adds.mirrors.compile_eq hfinish
  have hroot : r.current.poolHere = 0 := by rw [hr.1]; rfl
  have hpool : r₁.current.pool = Item.textAll items := by
    rw [h.adds.pool, hr.1]
    exact String.empty_append
  rw [hpool, h.names, hroot] at hcompile
  exact hcompile

theorem Records.grants_finish (hr : r.Blank)
    (h : r.Records ⟨⟨.root, []⟩, [], r.names⟩ r₁ records items) :
    Grants r₁.finish (∀ item ∈ Item.expandedAll items, item.isAttribute = false) fun p =>
      p.1.compile = .ok (.ofItems items r.names) := by
  have houter : r₁.outer = [] := h.adds.outer.trans hr.2
  have hiff := h.adds.mirrors.finish_iff
  rw [Draft.append, List.nil_append, forall_expandedAll_placeAll _ _ (· = false)] at hiff
  exact ⟨fun hnodes => hiff.2 ⟨houter, hnodes⟩,
    fun p hp => ⟨(hiff.1 ⟨p, hp⟩).2, h.compile hr hp⟩⟩

end Recorder

/-- Recording a document in any style is granted if its plans are proper and none of them is an
attribute, and the document depends on the plans and the names alone. -/
theorem Plan.grants_record {r : Recorder} (hr : r.Blank) (style : Style) (plans : List Plan) :
    Grants (style.record plans r) (Plan.ProperAll r.names plans ∧
        ∀ item ∈ Item.expandedAll (Plan.itemsAll plans), item.isAttribute = false)
      fun t => t.compile = .ok (.ofItems (Plan.itemsAll plans) r.names) := by
  refine (grants_recordAll style plans hr.mirrors).bind ?_
  rintro r₁ ⟨records, h₁⟩
  refine Grants.imp ((h₁.grants_finish hr).bind fun p hp => .ok hp) (Iff.of_eq (and_true _))
    fun _ h => h

/-- **The styles of recording agree.**  Two recorders have nothing recorded yet and know the same
names.  If one of them accepts some plans in one style, the other one accepts them in every other
style, and both recordings are compiled to the same document. -/
theorem Plan.record_agrees {r r' : Recorder} (hr : r.Blank) (hr' : r'.Blank)
    (hnames : r'.names = r.names) {style : Style} {plans : List Plan} {t : Recording}
    (h : style.record plans r = .ok t) (style' : Style) :
    ∃ (t' : Recording) (d : Document), style'.record plans r' = .ok t' ∧ t.compile = .ok d ∧
      t'.compile = .ok d := by
  obtain ⟨hproper, hcompile⟩ := (grants_record hr style plans).sound t h
  have hgrants := grants_record hr' style' plans
  rw [hnames] at hgrants
  obtain ⟨t', ht'⟩ := hgrants.granted hproper
  exact ⟨t', _, ht', hcompile, (hgrants.sound t' ht').2⟩

/-- A document with an element of its own, with fragments inside of one another and around an
attribute, with a void element and with arguments that record nothing. -/
def Plan.leaflet : List Plan :=
  [.mark .doctype, .noop,
    .element ⟨113⟩ [.mark (.text "a"), .fragment [.mark (.valued .className "b"), .noop,
      .fragment [.element ⟨13⟩ [.mark (.boolean .id)], .mark (.raw "<c>")]],
      .mark (.valued .className "d")],
    .fragment []]

def Recorder.ofLeaflet : Recorder := { new with names := Recording.card.names }

theorem Plan.leaflet_agrees : ∃ t, Recorder.ofLeaflet.Blank ∧
    Recorder.Blank { Recorder.ofLeaflet with ids := 1 } ∧
    Style.eager.record leaflet Recorder.ofLeaflet = .ok t ∧
    ∃ (t' : Recording) (d : Document),
      Style.adopting.record leaflet { Recorder.ofLeaflet with ids := 1 } = .ok t' ∧
      t.compile = .ok d ∧ t'.compile = .ok d := by
  have hrecord : (Style.eager.record leaflet Recorder.ofLeaflet).toOption.isSome := by
    decide +kernel
  have hblank : Recorder.ofLeaflet.Blank := ⟨rfl, rfl⟩
  have hblank' : Recorder.Blank { Recorder.ofLeaflet with ids := 1 } := ⟨rfl, rfl⟩
  cases h : Style.eager.record leaflet Recorder.ofLeaflet with
  | error fault => rw [h] at hrecord; cases hrecord
  | ok t => exact ⟨t, hblank, hblank', rfl, record_agrees hblank hblank' rfl h .adopting⟩

end HtmlTape
