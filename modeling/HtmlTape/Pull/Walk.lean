import HtmlTape.Pull.Element

/-!
# Walks

A walk reads the nodes of a list and of the elements in it, each before what is inside of it. A
visitor sees every node and says whether to go into it, to pass over what is inside, or to end
the walk. Iterators that are still to be read on wait on a stack.
-/

namespace HtmlTape

/-- What a walk does after a node was visited. -/
inductive Verdict where
  /-- Go on with what is inside of the node. -/
  | descend
  /-- Go on after the node. -/
  | skip
  /-- End the walk. -/
  | stop
deriving DecidableEq

/-- A visitor with a state of type `σ`. -/
structure Visitor (σ : Type) where
  /-- What happens at a node with so many lists around its own. The traversal's cursor may be
  used to read the attributes of the node. -/
  enter : Cursor → Nat → Node → σ → Except Fault (Verdict × Cursor × σ)
  /-- What happens when everything inside of an element was read. -/
  leave : Element → σ → Except Fault σ

/-- A list of nodes on the stack of a walk, with the element that the nodes are inside of. -/
structure Visit where
  nodes : Nodes
  element : Option Element
deriving DecidableEq

namespace Document

/-- Walk on with a stack of lists, in at most so many steps. The answer is the state of the
traversal and of the visitor at the end. -/
def walkFrom {σ : Type} (d : Document) (v : Visitor σ) :
    Nat → Cursor → List Visit → σ → Except Fault (Cursor × σ)
  | _, c, [], s => .ok (c, s)
  | 0, _, _ :: _, _ => .error .endless
  | steps + 1, c, visit :: outer, s => do
    match ← c.next d visit.nodes with
    | (none, c) =>
      let s ← match visit.element with
        | some e => v.leave e s
        | none => pure s
      d.walkFrom v steps c outer s
    | (some node, c) =>
      let (verdict, c, s) ← v.enter c outer.length node s
      match verdict, node with
      | .stop, _ => return (c, s)
      | .descend, .element e =>
        let (inner, c) ← c.children d e
        d.walkFrom v steps c (⟨inner, some e⟩ :: visit :: outer) s
      | _, _ => d.walkFrom v steps c (visit :: outer) s

/-- More steps than any walk takes: each step reads a node or ends a list, and there are no more
nodes and no more lists than words. -/
def walkSteps (d : Document) : Nat := 2 * d.code.size + 2

/-- Walk a list of nodes. -/
def walkWith {σ : Type} (d : Document) (v : Visitor σ) (c : Cursor) (nodes : Nodes) (s : σ) :
    Except Fault (Cursor × σ) :=
  d.walkFrom v d.walkSteps c [⟨nodes, none⟩] s

/-- Walk a list of nodes with a visitor that only looks at nodes when they are met. -/
def walk {σ : Type} (d : Document) (visit : Cursor → Node → σ → Except Fault (Verdict × σ))
    (c : Cursor) (nodes : Nodes) (s : σ) : Except Fault (Cursor × σ) :=
  d.walkWith
    { enter := fun c _ node s => (visit c node s).map fun (verdict, s) => (verdict, c, s)
      leave := fun _ s => .ok s }
    c nodes s

def walkAll {σ : Type} (d : Document) (visit : Cursor → Node → σ → Except Fault (Verdict × σ))
    (s : σ) : Except Fault (Cursor × σ) :=
  d.walk visit (Cursor.start d) Nodes.document s

end Document

end HtmlTape
