import HtmlTape.Pull.Element

/-!
# Sessions

A session is a document with any number of traversals of it, and all the handles they have
answered. Handles are numbered by sort in the order in which they were made, and requests name
them by number. A request that breaks the protocol changes nothing and makes no handle.
-/

namespace HtmlTape

/-- Something that belongs to one of the traversals. -/
structure Owned (α : Type) where
  traversal : Nat
  handle : α

/-- A document, traversals of it, and handles. -/
structure Session where
  document : Document
  cursors : Array Cursor
  nodes : Array (Owned Nodes)
  elements : Array (Owned Element)
  attributes : Array (Owned Attributes)
  groups : Array AttributeGroup
  values : Array (List Literal)

/-- A request to a session. Handles are named by their numbers. -/
inductive Request where
  | pull
  | next (nodes : Nat)
  | hasNext (nodes : Nat)
  | isDocument (nodes : Nat)
  | name (element : Nat)
  | code (element : Nat)
  | kind (element : Nat)
  | hasChildren (element : Nat)
  | copyElement (element : Nat)
  | children (element : Nat)
  | attributes (element : Nat)
  | findAttribute (element : Nat) (name : String)
  | nextAttribute (attributes : Nat)
  | hasNextAttribute (attributes : Nat)
  | attributeCode (attr : Nat)
  | value (attr : Nat)
  | isBoolean (attr : Nat)
  | values (attr : Nat)
  | copyValues (values : Nat)
  | nextValue (values : Nat)
  | hasNextValue (values : Nat)
deriving DecidableEq

/-- The answer to a request. New handles are named by their numbers. -/
inductive Reply where
  /-- There is nothing further. -/
  | none
  | flag (value : Bool)
  | number (value : Nat)
  | string (value : String)
  | kind (value : ElementKind)
  | doctype
  | text (value : String)
  | raw (value : String)
  /-- An element was read. -/
  | node (element : Nat) (name : String)
  | nodes (nodes : Nat)
  | element (element : Nat)
  | attributes (attributes : Nat)
  | attr (attr : Nat) (name : String)
  | values (values : Nat)
  /-- The document uses no attribute of that name. -/
  | unknownName
  /-- No handle has that number. -/
  | unknownHandle
deriving DecidableEq

namespace Session

def new (document : Document) : Session :=
  ⟨document, #[], #[], #[], #[], #[], #[]⟩

/-- A session with its answer. -/
abbrev Outcome := Except Fault (Reply × Session)

def unknownHandle (s : Session) : Outcome := .ok (.unknownHandle, s)

def cursor (s : Session) (traversal : Nat) : Cursor :=
  s.cursors.getD traversal (Cursor.start s.document)

/-- The session after a traversal has gone on. -/
def withCursor (s : Session) (traversal : Nat) (c : Cursor) : Session :=
  { s with cursors := s.cursors.setIfInBounds traversal c }

/-- Use the handle of a number. -/
def onHandle {α : Type} (s : Session) (handles : Array α) (n : Nat) (f : α → Outcome) : Outcome :=
  match handles[n]? with
  | some handle => f handle
  | none => s.unknownHandle

/-- Use the handle of a number with its traversal and the cursor there. -/
def onOwned {α : Type} (s : Session) (handles : Array (Owned α)) (n : Nat)
    (f : Nat → Cursor → α → Outcome) : Outcome :=
  s.onHandle handles n fun owned => f owned.traversal (s.cursor owned.traversal) owned.handle

def addNodes (s : Session) (traversal : Nat) (nodes : Nodes) : Reply × Session :=
  (.nodes s.nodes.size, { s with nodes := s.nodes.push ⟨traversal, nodes⟩ })

/-- Answer a node that was read, with a handle if it is an element. -/
def addNode (s : Session) (traversal : Nat) : Option Node → Outcome
  | none => .ok (.none, s)
  | some .doctype => .ok (.doctype, s)
  | some (.text value) => .ok (.text value, s)
  | some (.raw value) => .ok (.raw value, s)
  | some (.element e) => do
    let name ← e.nameText s.document
    return (.node s.elements.size name, { s with elements := s.elements.push ⟨traversal, e⟩ })

def addGroup (s : Session) : Option AttributeGroup → Outcome
  | none => .ok (.none, s)
  | some g => do
    let name ← g.nameText s.document
    return (.attr s.groups.size name, { s with groups := s.groups.push g })

def addValues (s : Session) (values : List Literal) : Reply × Session :=
  (.values s.values.size, { s with values := s.values.push values })

def answerText (s : Session) : Option String → Reply × Session
  | none => (.none, s)
  | some text => (.string text, s)

def request (s : Session) : Request → Outcome
  | .pull =>
    let traversal := s.cursors.size
    let s := { s with cursors := s.cursors.push (Cursor.start s.document) }
    .ok (s.addNodes traversal Nodes.document)
  | .next n => s.onOwned s.nodes n fun t c nodes => do
    let (node, c) ← c.next s.document nodes
    (s.withCursor t c).addNode t node
  | .hasNext n => s.onOwned s.nodes n fun _ c nodes => (c.hasNext nodes).map fun b => (.flag b, s)
  | .isDocument n => s.onOwned s.nodes n fun _ c nodes =>
    (c.isDocument nodes).map fun b => (.flag b, s)
  | .name n => s.onOwned s.elements n fun _ _ e =>
    (e.nameText s.document).map fun name => (.string name, s)
  | .code n => s.onOwned s.elements n fun _ _ e => .ok (.number (e.name s.document).code, s)
  | .kind n => s.onOwned s.elements n fun _ _ e => .ok (.kind (e.kind s.document), s)
  | .hasChildren n => s.onOwned s.elements n fun _ _ e => .ok (.flag (e.hasChildren s.document), s)
  | .copyElement n => s.onOwned s.elements n fun t _ e =>
    .ok (.element s.elements.size, { s with elements := s.elements.push ⟨t, e⟩ })
  | .children n => s.onOwned s.elements n fun t c e => do
    let (nodes, c) ← c.children s.document e
    return (s.withCursor t c).addNodes t nodes
  | .attributes n => s.onOwned s.elements n fun t c e => do
    let (attributes, c) ← c.attributes s.document e
    let s := s.withCursor t c
    return (.attributes s.attributes.size,
      { s with attributes := s.attributes.push ⟨t, attributes⟩ })
  | .findAttribute n name => s.onOwned s.elements n fun _ c e =>
    match s.document.names.attributeNamed? name with
    | none => .ok (.unknownName, s)
    | some name => do s.addGroup (← c.findAttribute s.document e name)
  | .nextAttribute n => s.onOwned s.attributes n fun t c attributes => do
    let (g, attributes) ← c.nextAttribute attributes
    { s with attributes := s.attributes.setIfInBounds n ⟨t, attributes⟩ }.addGroup g
  | .hasNextAttribute n => s.onOwned s.attributes n fun _ c attributes =>
    (c.hasNextAttribute attributes).map fun b => (.flag b, s)
  | .attributeCode n => s.onHandle s.groups n fun g => .ok (.number g.name.code, s)
  | .value n => s.onHandle s.groups n fun g => (g.firstValue? s.document).map s.answerText
  | .isBoolean n => s.onHandle s.groups n fun g => .ok (.flag g.isBoolean, s)
  | .values n => s.onHandle s.groups n fun g => .ok (s.addValues g.values)
  | .copyValues n => s.onHandle s.values n fun values => .ok (s.addValues values)
  | .nextValue n => s.onHandle s.values n fun values => do
    let text ← values.head?.mapM s.document.literal
    return { s with values := s.values.setIfInBounds n values.tail }.answerText text
  | .hasNextValue n => s.onHandle s.values n fun values => .ok (.flag !values.isEmpty, s)

end Session

end HtmlTape
