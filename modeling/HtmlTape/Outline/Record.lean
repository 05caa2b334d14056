import HtmlTape.Outline.Parse
import HtmlTape.Recorder.Basic

/-!
# Recording an outline

The nodes of an outline are recorded in order, each element by opening it, recording its
attributes and children, and closing it. A name that gets no code ends the recording.
-/

namespace HtmlTape

/-- Why an outline could not be recorded. -/
inductive Stop where
  | refused (error : NameError)
  | fault (fault : Fault)
deriving DecidableEq

namespace Outline

/-- A step of a recording that may be refused a name. -/
def named {α : Type} : Except NameError α → Except Stop α :=
  Except.mapError .refused

/-- A step of a recording that may be at fault. -/
def faulty {α : Type} : Except Fault α → Except Stop α :=
  Except.mapError .fault

def recordAttribute (r : Recorder) (a : String × Option String) : Except Stop Recorder := do
  let (name, r) ← named (r.internAttribute a.1)
  match a.2 with
  | some value => (faulty (r.valuedAttribute name value)).map (·.2)
  | none => (faulty (r.booleanAttribute name)).map (·.2)

mutual

/-- Record a node with everything inside of it. -/
def recordNode (r : Recorder) : Node → Except Stop Recorder
  | .doctype => .ok r.doctype.2
  | .text value => .ok (r.text value).2
  | .raw value => .ok (r.raw value).2
  | .element name attributes children => do
    let (name, r) ← named (r.internElement name)
    let r ← faulty (r.openElement name)
    let r ← attributes.foldlM recordAttribute r
    let r ← recordNodes r children
    (faulty r.closeElement).map (·.2)

def recordNodes (r : Recorder) : List Node → Except Stop Recorder
  | [] => .ok r
  | node :: nodes => do
    let r ← recordNode r node
    recordNodes r nodes

end

def recording (nodes : List Node) : Except Stop Recording := do
  let r ← recordNodes Recorder.new nodes
  (faulty r.finish).map (·.1)

/-- The recording of an outline that must be well formed. -/
def recorded (source : String) : Except Fault Recording :=
  match parse source with
  | .error e => .error (.badOutline e.message)
  | .ok nodes =>
    match recording nodes with
    | .ok t => .ok t
    | .error (.refused e) => .error (.badOutlineName e)
    | .error (.fault f) => .error f

end Outline

end HtmlTape
