import HtmlTape.Proofs.Recorder.Course
import HtmlTape.Pull.Session

/-!
# Requests that move nothing

Most requests leave the traversals, the lists of nodes and the elements of a session alone, and of
the attributes they only change which of them were read (`Session.SameHandles`).  The exceptions
are the requests that hand something out or read a list on (`Request.moves`).
-/

namespace HtmlTape

/-- The request can change more than attributes and values that were read. -/
def Request.moves : Request → Bool
  | .pull | .next _ | .children _ | .attributes _ | .copyElement _ => true
  | _ => false

namespace Session

def owners (s : Session) : List (Owned Element) :=
  s.attributes.toList.map fun owned => ⟨owned.traversal, owned.handle.element⟩

/-- The sessions have the same traversals, lists of nodes and elements, and attributes of the same
elements. -/
structure SameHandles (s s' : Session) : Prop where
  document : s'.document = s.document
  cursors : s'.cursors = s.cursors
  nodes : s'.nodes = s.nodes
  elements : s'.elements = s.elements
  owners : s'.owners = s.owners

namespace SameHandles

theorem refl (s : Session) : s.SameHandles s := ⟨rfl, rfl, rfl, rfl, rfl⟩

theorem trans {a b c : Session} (h : a.SameHandles b) (g : b.SameHandles c) : a.SameHandles c :=
  ⟨g.document.trans h.document, g.cursors.trans h.cursors, g.nodes.trans h.nodes,
    g.elements.trans h.elements, g.owners.trans h.owners⟩

/-- The handle of attributes is put in place of one of the same element. -/
theorem setAttributes {s : Session} {k : Nat} {owned : Owned Attributes}
    (hk : s.attributes[k]? = some owned) (owned' : Owned Attributes)
    (htraversal : owned'.traversal = owned.traversal)
    (helement : owned'.handle.element = owned.handle.element) :
    s.SameHandles { s with attributes := s.attributes.setIfInBounds k owned' } := by
  refine ⟨rfl, rfl, rfl, rfl, ?_⟩
  rw [Session.owners, Session.owners, Array.toList_setIfInBounds, List.map_set, htraversal,
    helement]
  refine List.ext_getElem? fun i => ?_
  by_cases hik : k = i
  · subst hik
    have hlt : k < s.attributes.toList.length := (Array.getElem?_eq_some_iff.1 hk).1
    rw [List.getElem?_set_self (by rwa [List.length_map]), List.getElem?_map,
      Array.getElem?_toList, hk, Option.map_some]
  · rw [List.getElem?_set_ne hik]

end SameHandles

variable {s s' : Session} {reply : Reply}

/-! ### Looking up a handle -/

section

variable {α : Type} {n : Nat}

theorem of_onHandle {handles : Array α} {f : α → Outcome}
    (h : s.onHandle handles n f = .ok (reply, s')) :
    s' = s ∧ handles[n]? = none ∨
      ∃ handle, handles[n]? = some handle ∧ f handle = .ok (reply, s') := by
  rw [onHandle] at h
  split at h
  · exact .inr ⟨_, ‹_›, h⟩
  · cases h
    exact .inl ⟨rfl, ‹_›⟩

theorem of_onOwned {handles : Array (Owned α)} {f : Nat → Cursor → α → Outcome}
    (h : s.onOwned handles n f = .ok (reply, s')) :
    s' = s ∧ handles[n]? = none ∨ ∃ owned, handles[n]? = some owned ∧
      f owned.traversal (s.cursor owned.traversal) owned.handle = .ok (reply, s') :=
  of_onHandle h

theorem onOwned_eq (s : Session) {handles : Array (Owned α)} {owned : Owned α}
    (h : handles[n]? = some owned) (f : Nat → Cursor → α → Outcome) :
    s.onOwned handles n f = f owned.traversal (s.cursor owned.traversal) owned.handle := by
  rw [onOwned, onHandle, h]

end

/-! ### Answers -/

theorem of_addGroup {g : Option AttributeGroup} (h : s.addGroup g = .ok (reply, s')) :
    s.SameHandles s' := by
  cases g with
  | none =>
    cases h
    exact .refl s
  | some g =>
    obtain ⟨_, _, h⟩ := of_bind_eq_ok h
    cases h
    exact ⟨rfl, rfl, rfl, rfl, rfl⟩

theorem of_answerText {text : Option String} (h : s.answerText text = (reply, s')) :
    s.SameHandles s' := by
  cases text <;> cases h <;> exact .refl s

theorem of_map_answer {α : Type} {x : Except Fault α} {f : α → Reply}
    (h : (x.map fun a => (f a, s)) = .ok (reply, s')) : s.SameHandles s' := by
  obtain ⟨_, _, h⟩ := of_map_eq_ok h
  cases h
  exact .refl s

/-- **Other requests move nothing.** -/
theorem sameHandles_request {request : Request} (hr : s.request request = .ok (reply, s'))
    (hmoves : request.moves = false) : s.SameHandles s' := by
  cases request with
  | pull | next | children | attributes | copyElement => cases hmoves
  | hasNext n | isDocument n =>
    rw [request] at hr
    obtain ⟨rfl, _⟩ | ⟨_, _, h⟩ := of_onOwned hr
    · exact .refl s'
    · exact of_map_answer h
  | name n =>
    rw [request] at hr
    obtain ⟨rfl, _⟩ | ⟨_, _, h⟩ := of_onOwned hr
    · exact .refl s'
    · exact of_map_answer h
  | code n | kind n | hasChildren n =>
    rw [request] at hr
    obtain ⟨rfl, _⟩ | ⟨_, _, h⟩ := of_onOwned hr
    · exact .refl s'
    · cases h
      exact .refl s
  | findAttribute n name =>
    rw [request] at hr
    obtain ⟨rfl, _⟩ | ⟨_, _, h⟩ := of_onOwned hr
    · exact .refl s'
    · revert h
      cases s.document.names.attributeNamed? name with
      | none =>
        intro h
        cases h
        exact .refl s
      | some name =>
        intro h
        obtain ⟨_, _, h⟩ := of_bind_eq_ok h
        exact of_addGroup h
  | nextAttribute n =>
    rw [request] at hr
    obtain ⟨rfl, _⟩ | ⟨owned, hn, h⟩ := of_onOwned hr
    · exact .refl s'
    · obtain ⟨⟨g, attributes⟩, hnext, h⟩ := of_bind_eq_ok h
      obtain ⟨_, _, hrest⟩ := of_map_eq_ok hnext
      cases hrest
      refine .trans ?_ (of_addGroup h)
      exact .setAttributes hn _ rfl rfl
  | hasNextAttribute n =>
    rw [request] at hr
    obtain ⟨rfl, _⟩ | ⟨_, _, h⟩ := of_onOwned hr
    · exact .refl s'
    · exact of_map_answer h
  | attributeCode n | isBoolean n | values n =>
    rw [request] at hr
    obtain ⟨rfl, _⟩ | ⟨_, _, h⟩ := of_onHandle hr
    · exact .refl s'
    · cases h
      exact ⟨rfl, rfl, rfl, rfl, rfl⟩
  | value n =>
    rw [request] at hr
    obtain ⟨rfl, _⟩ | ⟨_, _, h⟩ := of_onHandle hr
    · exact .refl s'
    · obtain ⟨text, _, h⟩ := of_map_eq_ok h
      exact of_answerText h
  | copyValues n | hasNextValue n =>
    rw [request] at hr
    obtain ⟨rfl, _⟩ | ⟨_, _, h⟩ := of_onHandle hr
    · exact .refl s'
    · cases h
      exact ⟨rfl, rfl, rfl, rfl, rfl⟩
  | nextValue n =>
    rw [request] at hr
    obtain ⟨rfl, _⟩ | ⟨_, _, h⟩ := of_onHandle hr
    · exact .refl s'
    · obtain ⟨text, _, h⟩ := of_bind_eq_ok h
      have hanswer := of_answerText (Except.ok.inj h)
      exact ⟨hanswer.document, hanswer.cursors, hanswer.nodes, hanswer.elements, hanswer.owners⟩

end Session

end HtmlTape
