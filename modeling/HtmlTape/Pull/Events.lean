import HtmlTape.Event.Basic
import HtmlTape.Pull.Walk

/-!
# Events of a walk

The events of a document gathered node by node, in place of one pass over the bytecode. They are
the same as those of playing the document.
-/

namespace HtmlTape.Document

def groupEvents (d : Document) (g : AttributeGroup) : Except Fault (List Event) := do
  let name ← g.nameText d
  let values ← g.valueTexts d
  return .attributeName name :: Event.ofValues values

/-- The events of a start tag, and the cursor after its attributes were read. -/
def tagEvents (d : Document) (c : Cursor) (e : Element) : Except Fault (List Event × Cursor) := do
  let name ← e.nameText d
  let (attributes, c) ← c.attributes d e
  let groups ← c.unreadAttributes attributes
  let groups ← groups.mapM d.groupEvents
  let close := if (e.kind d).isVoid then .voidEnd else .startTagEnd (e.hasChildren d)
  return (.startTag name (e.kind d) :: groups.flatten ++ [close], c)

/-- Gather the events of a walk. -/
def eventVisitor (d : Document) : Visitor (Array Event) where
  enter c _ node events :=
    match node with
    | .doctype => .ok (.skip, c, events.push .doctype)
    | .text value => .ok (.skip, c, events.push (.text value))
    | .raw value => .ok (.skip, c, events.push (.raw value))
    | .element e => do
      let (tag, c) ← d.tagEvents c e
      return (if (e.kind d).isVoid then .skip else .descend, c, events ++ tag)
  leave e events := do
    let name ← e.nameText d
    return events.push (.endTag name (e.kind d))

/-- The events of a document, gathered node by node. -/
def pullEvents (d : Document) : Except Fault (List Event) :=
  (d.walkWith d.eventVisitor (Cursor.start d) Nodes.document #[]).map fun (_, events) =>
    events.toList

def pullEventLines (d : Document) : Except Fault (List String) :=
  d.pullEvents.map (·.map Event.line)

end HtmlTape.Document
