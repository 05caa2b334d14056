import HtmlTape.Pull.Cursor

/-!
# Elements, attributes and values

An element that was read can be asked for its attributes and then once for its children, until
the list it comes from is read on. Its name and its kind, and the values of an attribute, are
read from the bytecode and stay good for ever.
-/

namespace HtmlTape

namespace Element

def name (e : Element) (d : Document) : ElementName := ⟨d.word (e.start + 1)⟩

def nameText (e : Element) (d : Document) : Except Fault String :=
  d.names.elementText (e.name d)

def kind (e : Element) (d : Document) : ElementKind := (e.name d).kind

/-- How many words an element spans. -/
def span (e : Element) (d : Document) : Nat := d.word (e.start + 2)

def groups (e : Element) (d : Document) : List AttributeGroup :=
  (d.groupsFrom (e.start + 3)).1

/-- The offset after the attributes of an element. -/
def tagEnd (e : Element) (d : Document) : Nat :=
  (d.groupsFrom (e.start + 3)).2

def hasChildren (e : Element) (d : Document) : Bool :=
  d.instruction? (e.tagEnd d) == some (.startTagEnd true)

/-- The offsets of the first child and after the last one. -/
def window (e : Element) (d : Document) : Except Fault (Nat × Nat) :=
  let stop := e.tagEnd d
  match d.instruction? stop with
  | some (.startTagEnd _) => .ok (stop + 2, e.start + e.span d - 2)
  | some .voidEnd => .ok (stop + 1, stop + 1)
  | _ => .error (.noTagEnd (d.word stop) stop)

end Element

/-- A handle to the attributes of an element, with those that were not read yet. -/
structure Attributes where
  element : Element
  rest : List AttributeGroup
deriving DecidableEq

namespace Cursor

/-- The nodes inside of an element. They can be asked for once. -/
def children (c : Cursor) (d : Document) (e : Element) : Except Fault (Nodes × Cursor) := do
  let (first, stop) ← e.window d
  let frame ← c.ownerFrame e
  if frame.stage = .children then throw .childrenTwice
  let inner : Frame := ⟨c.nextId, false, first, stop, none, .fresh⟩
  let outer := c.withFrame e.owner { frame with stage := .children }
  return (⟨e.owner.depth + 1, c.nextId⟩,
    ⟨outer.frames ++ [inner], (c.nextId + 1) % idCount⟩)

/-- The attributes of an element, before its children are asked for. -/
def attributes (c : Cursor) (d : Document) (e : Element) : Except Fault (Attributes × Cursor) := do
  let frame ← c.ownerFrame e
  if frame.stage = .children then throw .attributesAfterChildren
  return (⟨e, e.groups d⟩,
    { c with frames := c.frames.set e.owner.depth { frame with stage := .attributes } })

/-- The attribute of an element that has a given name. -/
def findAttribute (c : Cursor) (d : Document) (e : Element) (name : AttributeName) :
    Except Fault (Option AttributeGroup) :=
  (c.ownerFrame e).map fun _ => (e.groups d).find? (·.name = name)

/-- The attributes of a handle that were not read yet, if they may still be read. -/
def unreadAttributes (c : Cursor) (attributes : Attributes) :
    Except Fault (List AttributeGroup) := do
  let frame ← c.ownerFrame attributes.element
  if frame.stage ≠ .attributes then throw .attributeAfterChildren
  return attributes.rest

def hasNextAttribute (c : Cursor) (attributes : Attributes) : Except Fault Bool :=
  (c.unreadAttributes attributes).map fun rest => !rest.isEmpty

/-- The next attribute, and the handle after it. -/
def nextAttribute (c : Cursor) (attributes : Attributes) :
    Except Fault (Option AttributeGroup × Attributes) :=
  (c.unreadAttributes attributes).map fun rest => (rest.head?, { attributes with rest := rest.tail })

end Cursor

namespace AttributeGroup

def nameText (g : AttributeGroup) (d : Document) : Except Fault String :=
  d.names.attributeText g.name

/-- The values of an attribute, in order. -/
def valueTexts (g : AttributeGroup) (d : Document) : Except Fault (List String) :=
  g.values.mapM d.literal

def firstValue? (g : AttributeGroup) (d : Document) : Except Fault (Option String) :=
  g.values.head?.mapM d.literal

def isBoolean (g : AttributeGroup) : Bool := g.values.isEmpty

end AttributeGroup

end HtmlTape
