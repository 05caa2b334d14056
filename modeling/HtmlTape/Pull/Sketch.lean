import HtmlTape.Pull.Walk
import HtmlTape.Text.Quoted

/-!
# Sketches

A sketch of a document has one line for each node, indented by the depth of the node, down to a
given number of lines. Elements show their attributes, and texts show how they begin.
-/

namespace HtmlTape.Document

/-- How many characters of a text a sketch shows. -/
def previewLength : Nat := 40

/-- The beginning of a text, on one line. -/
def preview (s : String) : String :=
  let chars := s.toList
  let shown := (chars.take previewLength).map fun c => if c = '\n' then ' ' else c
  String.ofList (if previewLength < chars.length then shown ++ ['…'] else shown)

/-- An attribute in a sketch: its name, and its values joined by blanks. -/
def sketchGroup (d : Document) (g : AttributeGroup) : Except Fault String := do
  let name ← g.nameText d
  let values ← g.valueTexts d
  if values.isEmpty then return " " ++ name
  else return " " ++ name ++ "=" ++ Text.quoted (" ".intercalate values).toList

/-- The line of a node without its indentation, and the cursor after it. -/
def sketchNode (d : Document) (c : Cursor) : Node → Except Fault (String × Cursor)
  | .doctype => .ok ("<!DOCTYPE html>", c)
  | .text value => .ok ("\"" ++ preview value ++ "\"", c)
  | .raw value => .ok ("raw \"" ++ preview value ++ "\"", c)
  | .element e => do
    let name ← e.nameText d
    let (attributes, c) ← c.attributes d e
    let groups ← c.unreadAttributes attributes
    let groups ← groups.mapM d.sketchGroup
    return ("<" ++ name ++ String.join groups ++ ">", c)

/-- Gather the lines of a sketch, up to a number of lines. -/
def sketchVisitor (d : Document) (limit : Nat) : Visitor (Array String) where
  enter c depth node lines := do
    let (line, c) ← d.sketchNode c node
    let lines := lines.push (String.join (List.replicate depth "  ") ++ line)
    return (if lines.size < limit then .descend else .stop, c, lines)
  leave _ lines := .ok lines

/-- The first `limit` lines of the sketch of a document. -/
def sketch (d : Document) (limit : Nat) : Except Fault (List String) :=
  if limit = 0 then .ok []
  else
    (d.walkWith (d.sketchVisitor limit) (Cursor.start d) Nodes.document #[]).map fun (_, lines) =>
      lines.toList

end HtmlTape.Document
