import HtmlTape.Pull.Walk

/-!
# Queries

Questions about a document that are answered by a walk. No tree is built, and what a question
does not need is passed over.
-/

namespace HtmlTape.Document

/-! ### Elements by id -/

/-- The first value of the attribute `id` of an element. -/
def idOf (d : Document) (c : Cursor) (e : Element) : Except Fault (Option String) := do
  match ← c.findAttribute d e .id with
  | some g => g.firstValue? d
  | none => return none

/-- Look for an element with a given id, and stop at the first one. -/
def visitId (d : Document) (id : String) (c : Cursor) (node : Node) (found : Option Element) :
    Except Fault (Verdict × Option Element) :=
  match node with
  | .element e =>
    (d.idOf c e).map fun value => if value = some id then (.stop, some e) else (.descend, found)
  | _ => .ok (.descend, found)

/-- The first element in the order of the document with a given id, and the traversal that has
just read it. -/
def elementById (d : Document) (id : String) : Except Fault (Option Element × Cursor) :=
  (d.walkAll (d.visitId id) none).map Prod.swap

/-! ### Text -/

def visitText (_ : Cursor) (node : Node) (text : String) : Except Fault (Verdict × String) :=
  match node with
  | .text value => .ok (.descend, text ++ value)
  | _ => .ok (.descend, text)

/-- The text inside of an element, without raw markup. The element's children must not have been
asked for before. -/
def textContent (d : Document) (c : Cursor) (e : Element) : Except Fault (String × Cursor) := do
  let (nodes, c) ← c.children d e
  (d.walk visitText c nodes "").map Prod.swap

/-! ### Counts and values -/

def visitCount (_ : Cursor) (node : Node) (count : Nat) : Except Fault (Verdict × Nat) :=
  match node with
  | .element _ => .ok (.descend, count + 1)
  | _ => .ok (.descend, count)

def countElements (d : Document) : Except Fault Nat :=
  (d.walkAll visitCount 0).map Prod.snd

/-- The values of an attribute of an element; none if it has no such attribute. -/
def valuesOf (d : Document) (c : Cursor) (e : Element) (name : AttributeName) :
    Except Fault (List String) := do
  match ← c.findAttribute d e name with
  | some g => g.valueTexts d
  | none => return []

/-- Gather the values of an attribute on the elements of a given name. -/
def visitValues (d : Document) (element : ElementName) (name : AttributeName) (c : Cursor)
    (node : Node) (values : Array String) : Except Fault (Verdict × Array String) :=
  match node with
  | .element e =>
    if e.name d = element then
      (d.valuesOf c e name).map fun found => (.descend, values ++ found.toArray)
    else .ok (.descend, values)
  | _ => .ok (.descend, values)

/-- All values of an attribute on the elements of a given name, in the order of the document. -/
def attributeValues (d : Document) (element : ElementName) (name : AttributeName) :
    Except Fault (List String) :=
  (d.walkAll (d.visitValues element name) #[]).map fun (_, values) => values.toList

end HtmlTape.Document
