import HtmlTape.Code.Document
import HtmlTape.Event.Basic

/-!
# Playing a document

One pass over the bytecode from start to end. A stack of the open elements makes sure that every
end tag closes the element that was opened last.
-/

namespace HtmlTape.Document

/-- The event of an instruction, taken by itself. -/
def event (d : Document) : Instruction → Except Fault Event
  | .doctype => .ok .doctype
  | .startTag name _ => (d.names.elementText name).map fun text => .startTag text name.kind
  | .attributeName name => (d.names.attributeText name).map .attributeName
  | .firstValue l => (d.literal l).map .firstValue
  | .nextValue l => (d.literal l).map .nextValue
  | .valueEnd => .ok .valueEnd
  | .startTagEnd hasChildren => .ok (.startTagEnd hasChildren)
  | .voidEnd => .ok .voidEnd
  | .text l => (d.literal l).map .text
  | .raw l => (d.literal l).map .raw
  | .endTag name => (d.names.elementText name).map fun text => .endTag text name.kind

/-- The open elements after an instruction at `pc`, the innermost first. -/
def openAfter (d : Document) (opened : List ElementName) (pc : Nat) :
    Instruction → Except Fault (List ElementName)
  | .startTag name _ => .ok (name :: opened)
  | .voidEnd =>
    match opened with
    | _ :: outer => .ok outer
    | [] => .error (.unopenedVoid pc)
  | .endTag name =>
    if opened.head? = some name then .ok opened.tail
    else do throw (.mismatchedEnd (← d.names.elementText name) pc)
  | _ => .ok opened

/-- The events of a row of instructions, read when the elements `opened` are open, and the
elements that are open afterwards. -/
def playFrom (d : Document) (opened : List ElementName) :
    List (Nat × Instruction) → Except Fault (List Event × List ElementName)
  | [] => .ok ([], opened)
  | (pc, i) :: rest => do
    let opened ← d.openAfter opened pc i
    let event ← d.event i
    let (events, opened) ← d.playFrom opened rest
    return (event :: events, opened)

/-- The events of the document between its start and its end. All of the bytecode must be
readable, and all elements must be closed at its end. -/
def bodyEvents (d : Document) : Except Fault (List Event) := do
  let (events, opened) ← d.playFrom [] d.instructions
  let stop := d.readableSize
  if stop < d.code.size then throw (.unknownOpcode (d.word stop) stop)
  if !opened.isEmpty then throw (.unclosed opened.length)
  return events

def events (d : Document) : Except Fault (List Event) :=
  d.bodyEvents.map fun events => .documentStart :: events ++ [.documentEnd]

def playLines (d : Document) : Except Fault (List String) :=
  d.events.map (·.map Event.line)

/-- The lines of a log without the start and the end of the document. -/
def eventLines (d : Document) : Except Fault (List String) :=
  d.bodyEvents.map (·.map Event.line)

end HtmlTape.Document
