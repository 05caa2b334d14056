import HtmlTape.Name.Standard
import HtmlTape.Tape.Literal

/-!
# Instructions

Bytecode is a row of instructions, each an opcode with a fixed number of operand words. An
element is a start tag with its name and the number of words that the whole element spans, its
attributes, the end of the start tag, its children and its end tag; a void element has the end
of a void tag in place of the last three.
-/

namespace HtmlTape

inductive Instruction where
  | doctype
  /-- An element of `span` words starts here. -/
  | startTag (name : ElementName) (span : Nat)
  | attributeName (name : AttributeName)
  | firstValue (value : Literal)
  | nextValue (value : Literal)
  | valueEnd
  | startTagEnd (hasChildren : Bool)
  | voidEnd
  | text (value : Literal)
  | raw (value : Literal)
  | endTag (name : ElementName)
deriving DecidableEq

namespace Instruction

/-- The first word of an instruction. -/
def opcode : Instruction → Nat
  | doctype => 0xB0
  | startTag .. => 0xB1
  | attributeName _ => 0xB2
  | firstValue _ => 0xB3
  | nextValue _ => 0xB4
  | valueEnd => 0xB5
  | startTagEnd _ => 0xB6
  | voidEnd => 0xB7
  | text _ => 0xB8
  | raw _ => 0xB9
  | endTag _ => 0xBA

def operands : Instruction → List Nat
  | doctype | valueEnd | voidEnd => []
  | startTag name span => [name.code, span]
  | attributeName name => [name.code]
  | firstValue l | nextValue l | text l | raw l => [l.offset, l.size]
  | startTagEnd hasChildren => [hasChildren.toNat]
  | endTag name => [name.code]

def words (i : Instruction) : List Nat :=
  i.opcode :: i.operands

/-- How many words an instruction has. -/
def width (i : Instruction) : Nat :=
  i.words.length

def label : Instruction → String
  | doctype => "DOCTYPE"
  | startTag .. => "START_TAG"
  | attributeName _ => "ATTRIBUTE"
  | firstValue _ => "VALUE_FIRST"
  | nextValue _ => "VALUE_NEXT"
  | valueEnd => "VALUE_END"
  | startTagEnd _ => "START_TAG_END"
  | voidEnd => "SELF_CLOSING_END"
  | text _ => "TEXT"
  | raw _ => "RAW"
  | endTag _ => "END_TAG"

def allWords (is : List Instruction) : List Nat :=
  is.flatMap words

/-- How many words a row of instructions has. -/
def totalWidth : List Instruction → Nat
  | [] => 0
  | i :: is => i.width + totalWidth is

/-- The instruction that starts at `pc`; `none` when the word there is no opcode, or when
operands are missing. -/
def readAt? (code : Array Nat) (pc : Nat) : Option Instruction :=
  match code[pc]?, code[pc + 1]?, code[pc + 2]? with
  | some 0xB0, _, _ => some doctype
  | some 0xB1, some name, some span => some (startTag ⟨name⟩ span)
  | some 0xB2, some name, _ => some (attributeName ⟨name⟩)
  | some 0xB3, some o, some n => some (firstValue ⟨o, n⟩)
  | some 0xB4, some o, some n => some (nextValue ⟨o, n⟩)
  | some 0xB5, _, _ => some valueEnd
  | some 0xB6, some flag, _ => some (startTagEnd (flag != 0))
  | some 0xB7, _, _ => some voidEnd
  | some 0xB8, some o, some n => some (text ⟨o, n⟩)
  | some 0xB9, some o, some n => some (raw ⟨o, n⟩)
  | some 0xBA, some name, _ => some (endTag ⟨name⟩)
  | _, _, _ => none

theorem width_pos (i : Instruction) : 0 < i.width := by
  simp [width, words]

theorem lt_size_of_readAt? {code : Array Nat} {pc : Nat} {i : Instruction}
    (h : readAt? code pc = some i) : pc < code.size := by
  by_cases hlt : pc < code.size
  · exact hlt
  · have h₀ : code[pc]? = none := by simpa using hlt
    simp [readAt?, h₀] at h

/-- The words of an instruction read back as the instruction, whatever surrounds them. -/
theorem readAt?_append (before after : List Nat) (i : Instruction) :
    readAt? (before ++ i.words ++ after).toArray before.length = some i := by
  cases i with
  | startTagEnd hasChildren => cases hasChildren <;> simp [readAt?, words, opcode, operands]
  | _ => simp [readAt?, words, opcode, operands]

end Instruction

/-- An attribute with all of its values; without values it is written by its name alone. -/
structure AttributeGroup where
  name : AttributeName
  values : List Literal
deriving DecidableEq

def AttributeGroup.instructions (g : AttributeGroup) : List Instruction :=
  .attributeName g.name ::
    match g.values with
    | [] => []
    | value :: values => .firstValue value :: values.map .nextValue ++ [.valueEnd]

end HtmlTape
