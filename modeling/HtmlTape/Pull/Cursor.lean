import HtmlTape.Code.Document

/-!
# Reading nodes on demand

A document can be read node by node, going into an element only if its children are asked for.
All handles of one such traversal share a cursor: a stack of frames, one for each list of nodes
that is being read, each with the offset at which it goes on. Reading on in a list drops the
frames above it, so that handles to the inside of earlier nodes are no longer good; their frame
is gone, or another frame with another identity has taken its place.
-/

namespace HtmlTape

/-- What has been asked of the element that a frame answered last. -/
inductive Stage where
  | fresh
  | attributes
  | children
deriving DecidableEq

/-- A list of nodes that is being read. -/
structure Frame where
  id : Nat
  isDocument : Bool
  /-- The offset of the next node. -/
  pc : Nat
  /-- The offset after the last node. -/
  stop : Nat
  /-- The offset of the element that was answered last. -/
  current : Option Nat
  stage : Stage
deriving DecidableEq

/-- The state of a traversal. -/
structure Cursor where
  /-- The frames, the document's own first. -/
  frames : List Frame
  /-- The identity of the next frame. -/
  nextId : Nat
deriving DecidableEq

/-- A handle to a list of nodes: the place of its frame, and the frame's identity. -/
structure Nodes where
  depth : Nat
  id : Nat
deriving DecidableEq

/-- A handle to an element: the list of nodes it comes from, and the offset of its start tag. -/
structure Element where
  owner : Nodes
  start : Nat
deriving DecidableEq

inductive Node where
  | doctype
  | text (value : String)
  | raw (value : String)
  | element (element : Element)
deriving DecidableEq

def Nodes.document : Nodes := ⟨0, 0⟩

/-- How many identities there are before they are given out again. -/
def Cursor.idCount : Nat := 0x100000000

def Cursor.start (d : Document) : Cursor where
  frames := [⟨0, true, 0, d.code.size, none, .fresh⟩]
  nextId := 1

namespace Cursor

def frame (c : Cursor) (nodes : Nodes) : Except Fault Frame :=
  match c.frames[nodes.depth]? with
  | some frame => if frame.id = nodes.id then .ok frame else .error .movedPast
  | none => .error .movedPast

/-- The frame of the list that an element comes from. The element must be the one that was read
last. -/
def ownerFrame (c : Cursor) (e : Element) : Except Fault Frame := do
  let frame ← c.frame e.owner
  if frame.current ≠ some e.start then throw .movedPast
  return frame

/-- Make a frame the last one, at the place of a list of nodes. -/
def withFrame (c : Cursor) (nodes : Nodes) (frame : Frame) : Cursor :=
  { c with frames := c.frames.take nodes.depth ++ [frame] }

/-- There is a further node in a list. -/
def hasNext (c : Cursor) (nodes : Nodes) : Except Fault Bool :=
  (c.frame nodes).map fun frame => frame.pc < frame.stop

def isDocument (c : Cursor) (nodes : Nodes) : Except Fault Bool :=
  (c.frame nodes).map Frame.isDocument

end Cursor

/-- The node at which a frame stands, and the frame after it. -/
def Frame.next (f : Frame) (d : Document) (nodes : Nodes) : Except Fault (Option Node × Frame) :=
  if f.stop ≤ f.pc then .ok (none, f)
  else
    match d.instruction? f.pc with
    | some .doctype => .ok (some .doctype, { f with pc := f.pc + 1 })
    | some (.text l) =>
      (d.literal l).map fun text => (some (.text text), { f with pc := f.pc + 3 })
    | some (.raw l) =>
      (d.literal l).map fun raw => (some (.raw raw), { f with pc := f.pc + 3 })
    | some (.startTag _ span) =>
      .ok (some (.element ⟨nodes, f.pc⟩),
        { f with pc := f.pc + span, current := some f.pc, stage := .fresh })
    | _ => .error (.noNode (d.word f.pc) f.pc)

/-- The next node of a list. All frames above that of the list are dropped, also when there is no
further node. -/
def Cursor.next (c : Cursor) (d : Document) (nodes : Nodes) :
    Except Fault (Option Node × Cursor) := do
  let frame ← c.frame nodes
  let (node, frame) ← frame.next d nodes
  return (node, c.withFrame nodes frame)

end HtmlTape
