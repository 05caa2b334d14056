import HtmlTape.Code.Document
import HtmlTape.Text.Number
import HtmlTape.Text.Quoted

/-!
# Listings of bytecode

A listing has one line for each instruction: its offset, its name and its operands in readable
form. Words that cannot be read end the listing.
-/

namespace HtmlTape.Document

def quotedLiteral (d : Document) (l : Literal) : Except Fault String :=
  (d.literal l).map fun s => Text.quoted s.toList

def describeOperands (d : Document) : Instruction → Except Fault String
  | .startTag name span => (d.names.elementText name).map (" " ++ · ++ s!" span={span}")
  | .endTag name => (d.names.elementText name).map (" " ++ ·)
  | .attributeName name => (d.names.attributeText name).map (" " ++ ·)
  | .firstValue l | .nextValue l | .text l | .raw l => (d.quotedLiteral l).map (" " ++ ·)
  | .startTagEnd hasChildren => .ok (if hasChildren then " children" else " empty")
  | .doctype | .valueEnd | .voidEnd => .ok ""

def listingLine (d : Document) (pc : Nat) (i : Instruction) : Except Fault String := do
  let operands ← d.describeOperands i
  return Text.column '0' pc ++ " " ++ i.label ++ operands ++ "\n"

/-- One line for each instruction. -/
def listing (d : Document) : Except Fault String := do
  let lines ← d.instructions.mapM fun (pc, i) => d.listingLine pc i
  let stop := d.readableSize
  let rest := if stop < d.code.size then Text.column '0' stop ++ " ?\n<unknown opcode>\n" else ""
  return String.join lines ++ rest

end HtmlTape.Document
