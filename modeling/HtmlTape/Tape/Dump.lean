import HtmlTape.Tape.Recording
import HtmlTape.Text.Number
import HtmlTape.Text.Quoted

/-!
# Dumps of recordings

A dump has one line for each record in the order of the words, and one more for the references
at the end of each element. The dump finds the end of an element from its size and keeps a stack
of the elements whose references are still to come.
-/

namespace HtmlTape.Recording

def quotedLiteral (t : Recording) (l : Literal) : Except Fault String :=
  (l.read t.pool).map fun s => Text.quoted s.toList

/-- What the dump tells about a record after its offset. -/
def describe (t : Recording) : Record → Except Fault String
  | .leaf (.text l) => (t.quotedLiteral l).map (Tag.text.label ++ " " ++ ·)
  | .leaf (.raw l) => (t.quotedLiteral l).map (Tag.raw.label ++ " " ++ ·)
  | .leaf .doctype => .ok Tag.doctype.label
  | .leaf (.valued name l) => do
    let name ← t.names.attributeText name
    let value ← t.quotedLiteral l
    return Tag.valued.label ++ " " ++ name ++ "=" ++ value
  | .leaf (.boolean name) => (t.names.attributeText name).map (Tag.boolean.label ++ " " ++ ·)
  | .element name size _ => do
    let name ← t.names.elementText name
    return Tag.element.label ++ " " ++ name ++ s!" len={size}"
  | .fragment refs => .ok (Tag.fragment.label ++ " refs=" ++ Text.numberList refs)
  | .root refs => .ok (Tag.root.label ++ " refs=" ++ Text.numberList refs)

/-- The references of an element that still have to be listed. -/
structure Pending where
  start : Nat
  refs : List Nat

/-- The offset after an element's references, their number and its end mark. -/
def Pending.stop (p : Pending) : Nat := p.start + p.refs.length + 2

/-- The elements whose references are still to come, after reading the record at `offset`. -/
def enclose (offset : Nat) (record : Record) (pending : List Pending) : List Pending :=
  match record with
  | .element _ size refs => ⟨offset + size - 2 - refs.length, refs⟩ :: pending
  | _ => pending

/-- A line of a dump or listing. -/
def line (offset : Nat) (text : String) : String :=
  Text.column '0' offset ++ " " ++ text ++ "\n"

/-- One line of a dump: its text, the offset at which the dump goes on, and the elements whose
references are still to come from there. -/
structure DumpLine (offset : Nat) where
  text : String
  next : Nat
  pending : List Pending
  offset_lt_next : offset < next

/-- The line for the record that starts at an offset. A word that starts no record has a line by
itself. -/
def recordLine (t : Recording) (offset : Nat) (pending : List Pending) :
    Except Fault (DumpLine offset) :=
  match t.record offset with
  | .ok record => do
    let text ← t.describe record
    return ⟨text, offset + record.headSize, enclose offset record pending,
      Nat.lt_add_of_pos_right record.headSize_pos⟩
  | .error (.unexpectedRecord label _ _) =>
    .ok ⟨label, offset + 1, pending, Nat.lt_succ_self offset⟩
  | .error fault => .error fault

/-- The line for what starts at an offset: the references of the innermost element if they start
there, a record otherwise. -/
def dumpLine (t : Recording) (offset : Nat) (pending : List Pending) :
    Except Fault (DumpLine offset) :=
  match pending with
  | p :: outer =>
    if h : p.start = offset then
      .ok ⟨"REFS " ++ Text.numberList p.refs, p.stop, outer, by unfold Pending.stop; omega⟩
    else t.recordLine offset pending
  | [] => t.recordLine offset pending

/-- The lines from an offset on. -/
def dumpFrom (t : Recording) (offset : Nat) (pending : List Pending) :
    Except Fault (List String) :=
  if offset < t.words.size then
    match t.dumpLine offset pending with
    | .ok l => (dumpFrom t l.next l.pending).map (line offset l.text :: ·)
    | .error fault => .error fault
  else
    .ok []
termination_by t.words.size - offset
decreasing_by
  have := l.offset_lt_next
  omega

/-- One line for each record, and one for the references of each element. -/
def dump (t : Recording) : Except Fault String :=
  (t.dumpFrom 0 []).map String.join

end HtmlTape.Recording
