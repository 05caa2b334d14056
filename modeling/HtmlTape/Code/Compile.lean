import HtmlTape.Code.Document
import HtmlTape.Tape.Index
import HtmlTape.Tape.Recording

/-!
# Compiling a recording

The instructions of a document follow its references from the root. The attributes of an element
are gathered by name, in the order in which the names first occur among its references; they
stand in the start tag wherever they were recorded, and the element's children follow in order.

The references of an element lie before the references of its owner, so that following
references comes to an end. A recording in which they do not is at fault.
-/

namespace HtmlTape

/-- The instruction of a leaf; attributes have theirs in the start tag. -/
def Leaf.instructions : Leaf → List Instruction
  | text l => [.text l]
  | raw l => [.raw l]
  | doctype => [.doctype]
  | valued .. | boolean .. => []

def Record.attribute? : Record → Option (AttributeName × Option Literal)
  | .leaf (.valued name value) => some (name, some value)
  | .leaf (.boolean name) => some (name, none)
  | _ => none

/-- The values that attributes have under a name, in order. -/
def valuesOf {κ α : Type} [DecidableEq κ] (name : κ) (attributes : List (κ × Option α)) :
    List α :=
  attributes.filterMap fun a => if a.1 = name then a.2 else none

namespace AttributeGroup

/-- Gather attributes by name when attributes with the names `seen` stand before them.  An attribute
whose name was not seen opens a group, which takes the values from this attribute on. -/
def gatherFrom (seen : List AttributeName) :
    List (AttributeName × Option Literal) → List AttributeGroup
  | [] => []
  | a :: rest =>
    if a.1 ∈ seen then gatherFrom (a.1 :: seen) rest
    else ⟨a.1, valuesOf a.1 (a :: rest)⟩ :: gatherFrom (a.1 :: seen) rest

/-- Gather attributes by name, in the order in which the names first occur.  The values of a name
keep their order. -/
def gather (attributes : List (AttributeName × Option Literal)) : List AttributeGroup :=
  gatherFrom [] attributes

end AttributeGroup

/-- The span of a start tag is a word. -/
def Instruction.spanFits : Instruction → Bool
  | .startTag _ span => span ≤ lastWord
  | _ => true

/-- What follows the attributes of an element. -/
inductive Content where
  /-- Nothing, for a void element. -/
  | void
  /-- The children, and whether there are any. -/
  | children (hasChildren : Bool) (instructions : List Instruction)

def elementInstructions (name : ElementName) (groups : List AttributeGroup) (content : Content) :
    List Instruction :=
  let body := groups.flatMap AttributeGroup.instructions ++
    match content with
    | .void => [.voidEnd]
    | .children hasChildren instructions =>
      .startTagEnd hasChildren :: instructions ++ [.endTag name]
  .startTag name (3 + Instruction.totalWidth body) :: body

namespace Recording

/-- A record is found where none of its kind may be. -/
def unexpected (tag : Tag) (offset : Nat) : Fault :=
  .unexpectedRecord tag.label tag.word offset

/-- The instructions of the record at `ref`, when the references of its owner start at `limit`. -/
def nodeInstructions (t : Recording) (limit ref : Nat) : Except Fault (List Instruction) :=
  match t.record ref with
  | .error fault => .error fault
  | .ok (.leaf leaf) => .ok leaf.instructions
  | .ok (.fragment _) => .error (unexpected .fragment ref)
  | .ok (.root _) => .error (unexpected .root ref)
  | .ok (.element name size refs) =>
    let start := ref + size - 2 - refs.length
    if start < limit then do
      let records ← refs.mapM t.record
      let groups := AttributeGroup.gather (records.filterMap Record.attribute?)
      let hasChildren := records.any (!·.isAttribute)
      if name.kind.isVoid then
        if hasChildren then throw (.voidWithChildren (← t.names.elementText name))
        else return elementInstructions name groups .void
      else
        let children ← refs.mapM fun child => t.nodeInstructions start child
        return elementInstructions name groups (.children hasChildren children.flatten)
    else .error (.forwardReference ref)
termination_by limit

/-- The instructions of a top-level record, which may be no attribute. -/
def topInstructions (t : Recording) (ref : Nat) : Except Fault (List Instruction) := do
  if (← t.record ref).isAttribute then throw (.rootAttribute ref)
  t.nodeInstructions t.root ref

def rootRefs (t : Recording) : Except Fault (List Nat) :=
  if t.words[t.root]? = some Tag.root.word then Record.rowAt t.words t.root
  else .error (.missingRoot t.root)

def instructions (t : Recording) : Except Fault (List Instruction) := do
  let nodes ← (← t.rootRefs).mapM t.topInstructions
  return nodes.flatten

/-- The document with the pool and the names of a recording. -/
def withCode (t : Recording) (code : List Instruction) : Document :=
  ⟨(Instruction.allWords code).toArray, t.pool, t.names⟩

/-- Compile a recording. It can be compiled any number of times, always with the same result. -/
def compile (t : Recording) : Except Fault Document := do
  let code ← t.instructions
  return t.withCode code

/-- Compile a recording, in which every span must be a word. A finished recording breaks no other
rule of the compiler, so that it makes no difference in which order the rules are checked. -/
def compileChecked (t : Recording) : Except Fault Document := do
  let code ← t.instructions
  if code.all Instruction.spanFits then return t.withCode code
  else throw .tooLarge

/-- The remark on a recording that was compiled. -/
def compileNotice (t : Recording) (d : Document) : Notice where
  topic := "template.compiler"
  message := s!"compiled {t.words.size} recorded words into {d.code.size} bytecode words"

end Recording

end HtmlTape
