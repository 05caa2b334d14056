import HtmlTape.Proofs.Draft.Item

/-!
# Nested events

Where a listener stands while a document is read aloud: which elements are open, and whether it is
in the midst of a start tag.  `Nesting.Step` says which events may come there and where they lead.
The events of trees may come wherever a node may, and lead back to the same place
(`Nesting.run_eventsAll`); so each end tag is that of the innermost open element, and every tag is
closed before the next one starts.
-/

namespace HtmlTape

def Event.isAttribute : Event → Bool
  | attributeName _ | firstValue _ | nextValue _ | valueEnd => true
  | _ => false

def Event.openAfter (kinds : List ElementKind) : Event → List ElementKind
  | startTag _ kind => kind :: kinds
  | voidEnd | endTag .. => kinds.tail
  | _ => kinds

theorem Event.openAfter_of_isAttribute {e : Event} (h : e.isAttribute) (kinds : List ElementKind) :
    e.openAfter kinds = kinds := by
  cases e <;> first | rfl | cases h

theorem Event.foldl_openAfter {attributes : List Event} (h : ∀ e ∈ attributes, e.isAttribute)
    (kinds : List ElementKind) : attributes.foldl Event.openAfter kinds = kinds := by
  induction attributes with
  | nil => rfl
  | cons e es ih =>
    obtain ⟨he, hes⟩ := List.forall_mem_cons.1 h
    rw [List.foldl_cons, openAfter_of_isAttribute he, ih hes]

/-- The elements that events leave open, the innermost first. -/
def openKinds (es : List Event) : List ElementKind :=
  es.foldl Event.openAfter []

theorem Group.isAttribute_of_mem_events {names : Names} {g : Group String} {e : Event}
    (he : e ∈ g.events names) : e.isAttribute := by
  rw [Group.events] at he
  rcases List.mem_cons.1 he with rfl | he
  · rfl
  cases hvalues : g.values with
  | nil =>
    rw [hvalues] at he
    cases he
  | cons value values =>
    rw [hvalues] at he
    simp only [Event.ofValues, List.cons_append, List.mem_cons, List.mem_append, List.mem_map,
      List.not_mem_nil, or_false] at he
    rcases he with rfl | ⟨v, _, rfl⟩ | rfl <;> rfl

/-! ### Kinds of elements -/

theorem ElementName.kind_mem (name : ElementName) :
    name.kind = .normal ∨ ∃ text, (text, name.kind) ∈ standardElements := by
  rw [ElementName.kind]
  split
  · rename_i text kind h
    exact .inr ⟨text, Array.mem_of_getElem? h⟩
  · exact .inl rfl

theorem ElementName.kind_of_isRawText {name : ElementName} (h : name.kind.isRawText) :
    name.kind = .rawText := by
  have hstandard : ∀ p ∈ standardElements, p.2.isRawText → p.2 = .rawText := by decide +kernel
  rcases name.kind_mem with hkind | ⟨text, hmem⟩
  · rw [hkind] at h
    cases h
  · exact hstandard _ hmem h

/-! ### Steps -/

/-- What may come next. -/
inductive Awaited where
  /-- A node or an end tag. -/
  | content
  /-- A part of a start tag. -/
  | tag
  | nothing
deriving DecidableEq

/-- Where a listener stands. -/
structure Nesting where
  /-- The open elements, the innermost first. -/
  kinds : List ElementKind
  awaits : Awaited

namespace Nesting

/-- The event may come, and leads from the one place to the other. -/
inductive Step : Nesting → Event → Nesting → Prop
  | documentStart {kinds} : Step ⟨kinds, .content⟩ .documentStart ⟨kinds, .content⟩
  | doctype {kinds} : Step ⟨kinds, .content⟩ .doctype ⟨kinds, .content⟩
  | text {kinds} (value : String) : Step ⟨kinds, .content⟩ (.text value) ⟨kinds, .content⟩
  | raw {kinds} (value : String) : Step ⟨kinds, .content⟩ (.raw value) ⟨kinds, .content⟩
  | startTag {kinds} {kind : ElementKind} (name : String)
      (hkind : kind.isRawText → kind = .rawText) :
      Step ⟨kinds, .content⟩ (.startTag name kind) ⟨kind :: kinds, .tag⟩
  | inTag {kinds} {e : Event} (h : e.isAttribute) : Step ⟨kinds, .tag⟩ e ⟨kinds, .tag⟩
  | startTagEnd {kinds} {kind : ElementKind} (hasChildren : Bool) :
      Step ⟨kind :: kinds, .tag⟩ (.startTagEnd hasChildren) ⟨kind :: kinds, .content⟩
  | voidEnd {kinds} {kind : ElementKind} (hkind : kind.isRawText = false) :
      Step ⟨kind :: kinds, .tag⟩ .voidEnd ⟨kinds, .content⟩
  | endTag {kinds} (name : String) (kind : ElementKind) :
      Step ⟨kind :: kinds, .content⟩ (.endTag name kind) ⟨kinds, .content⟩
  | documentEnd : Step ⟨[], .content⟩ .documentEnd ⟨[], .nothing⟩

/-- The events may come one after another. -/
inductive Run : Nesting → List Event → Nesting → Prop
  | nil (n : Nesting) : Run n [] n
  | cons {n n' n'' : Nesting} {e : Event} {es : List Event} (step : Step n e n')
      (rest : Run n' es n'') : Run n (e :: es) n''

variable {n n' n'' : Nesting} {es es' : List Event}

theorem Step.run {e : Event} (h : Step n e n') : Run n [e] n' := .cons h (.nil n')

theorem Run.append (h : Run n es n') (h' : Run n' es' n'') : Run n (es ++ es') n'' := by
  induction h with
  | nil => exact h'
  | cons step _ ih => exact .cons step (ih h')

theorem Run.split (h : Run n (es ++ es') n'') : ∃ n', Run n es n' ∧ Run n' es' n'' := by
  induction es generalizing n with
  | nil => exact ⟨n, .nil n, h⟩
  | cons e es ih =>
    cases h with
    | cons step rest =>
      obtain ⟨n', hrun, hrest⟩ := ih rest
      exact ⟨n', .cons step hrun, hrest⟩

theorem Step.kinds_eq {e : Event} (h : Step n e n') : n'.kinds = e.openAfter n.kinds := by
  cases h with
  | inTag h => exact (Event.openAfter_of_isAttribute h _).symm
  | _ => rfl

/-- **The open elements are those that the events leave open.** -/
theorem Run.kinds_eq (h : Run n es n') : n'.kinds = es.foldl Event.openAfter n.kinds := by
  induction h with
  | nil => rfl
  | cons step _ ih => rw [ih, step.kinds_eq, List.foldl_cons]

/-- The start tag of an inline element is none of a script or style sheet. -/
theorem Run.of_tag {name : String} {kind : ElementKind} {attributes : List Event} {last : Event}
    (hattrs : ∀ e ∈ attributes, e.isAttribute) (hkind : kind.isPhrasing)
    (h : Run n (.startTag name kind :: attributes ++ [last]) n') :
    kind.isRawText = false ∧ n'.kinds = last.openAfter (kind :: n.kinds) := by
  refine ⟨?_, ?_⟩
  · cases h with
    | cons step _ =>
      cases step with
      | startTag _ hraw =>
        refine Bool.eq_false_iff.2 fun h => ?_
        rw [hraw h] at hkind
        cases hkind
      | inTag he => cases he
  · rw [h.kinds_eq, List.cons_append, List.foldl_cons, List.foldl_append,
      Event.foldl_openAfter hattrs]
    rfl

/-! ### Trees -/

theorem run_attributes (kinds : List ElementKind) (h : ∀ e ∈ es, e.isAttribute) :
    Run ⟨kinds, .tag⟩ es ⟨kinds, .tag⟩ := by
  induction es with
  | nil => exact .nil _
  | cons e es ih =>
    obtain ⟨he, hes⟩ := List.forall_mem_cons.1 h
    exact .cons (.inTag he) (ih hes)

/-- **The events of trees may come wherever a node may**, and leave open what was open before. -/
theorem run_eventsAll (names : Names) (trees : List (Tree String)) : ∀ kinds : List ElementKind,
    Run ⟨kinds, .content⟩ (Tree.eventsAll names trees) ⟨kinds, .content⟩ := by
  induction trees using Tree.forest_induction with
  | nil => exact fun kinds => .nil _
  | doctype rest ih => exact fun kinds => .cons .doctype (ih kinds)
  | text value rest ih => exact fun kinds => .cons (.text value) (ih kinds)
  | raw value rest ih => exact fun kinds => .cons (.raw value) (ih kinds)
  | element name groups children rest ih₁ ih₂ =>
    intro kinds
    have hattrs : ∀ e ∈ groups.flatMap (Group.events names), e.isAttribute := by
      intro e he
      obtain ⟨g, _, he⟩ := List.mem_flatMap.1 he
      exact Group.isAttribute_of_mem_events he
    have htag : Run ⟨kinds, .content⟩
        (.startTag (names.tag name) name.kind :: groups.flatMap (Group.events names))
        ⟨name.kind :: kinds, .tag⟩ :=
      .cons (.startTag _ name.kind_of_isRawText) (run_attributes _ hattrs)
    rw [Tree.eventsAll, Tree.events]
    refine Run.append (htag.append ?_) (ih₂ kinds)
    by_cases hvoid : name.kind.isVoid
    · rw [if_pos hvoid]
      refine (Step.voidEnd (Bool.eq_false_iff.2 fun hraw => ?_)).run
      rw [name.kind_of_isRawText hraw] at hvoid
      cases hvoid
    · rw [if_neg hvoid]
      exact Run.append (.cons (.startTagEnd _) (ih₁ _)) (Step.endTag _ _).run

theorem run_document (names : Names) (trees : List (Tree String)) :
    Run ⟨[], .content⟩ (.documentStart :: Tree.eventsAll names trees ++ [.documentEnd])
      ⟨[], .nothing⟩ :=
  Run.append (.cons .documentStart (run_eventsAll names trees [])) Step.documentEnd.run

end Nesting

end HtmlTape
