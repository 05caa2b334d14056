import HtmlTape.Name.Table

/-!
# Faults

The ways in which building, compiling or reading a document can break its rules, each with the
facts that its message tells. The faults of the first two groups are mistakes of the caller. The
faults of a recording and of bytecode cannot arise for what the recorder and the compiler
themselves produce.
-/

namespace HtmlTape

/-- A broken rule. -/
inductive Fault where
  -- Names
  | refusedName (error : NameError)
  /-- An element name code of another document. -/
  | unknownElement (code : Nat)
  /-- An attribute name code of another document. -/
  | unknownAttribute (code : Nat)
  /-- A name, object or token that was never stored. -/
  | unbound (key : String)
  -- Nesting of a recording
  /-- More arguments than entries at this level. -/
  | overclaimed (wanted available : Nat)
  /-- More adopted entries than entries at this level. -/
  | overadopted (wanted available : Nat)
  /-- An argument that is not the entry in its position. -/
  | misplacedArgument (position : Nat)
  | closeWithoutOpen
  | endWithoutFragment
  | abortWithoutFragment
  /-- A recording is finished with levels still open; the innermost is an element of that name,
  or else a fragment. -/
  | unfinished (levels : Nat) (innermost : Option String)
  | strayAttribute
  | voidWithChildren (element : String)
  /-- An offset or a length that is no word. -/
  | tooLarge
  -- The words of a recording
  /-- No list of top-level records where it should be. -/
  | missingRoot (offset : Nat)
  /-- An attribute among the top-level records. -/
  | rootAttribute (offset : Nat)
  /-- A record that cannot stand in a document. -/
  | unexpectedRecord (label : String) (tag offset : Nat)
  /-- An element record without its end. -/
  | unterminatedElement (offset : Nat)
  /-- A reference to a record that does not lie before it. -/
  | forwardReference (offset : Nat)
  | truncated (offset : Nat)
  /-- A literal that is no range of the pool. -/
  | badLiteral (offset size : Nat)
  -- Bytecode
  | unknownOpcode (word offset : Nat)
  /-- An instruction that starts no node. -/
  | noNode (word offset : Nat)
  /-- An instruction that ends no start tag. -/
  | noTagEnd (word offset : Nat)
  | unopenedVoid (offset : Nat)
  | mismatchedEnd (element : String) (offset : Nat)
  | unclosed (elements : Nat)
  /-- A traversal longer than its bytecode. -/
  | endless
  -- Iteration protocol
  /-- The handle's iterator has gone on. -/
  | movedPast
  | attributesAfterChildren
  | attributeAfterChildren
  | childrenTwice
  -- Outline sources
  | badOutline (message : String)
  | badOutlineName (error : NameError)
deriving DecidableEq

namespace Fault

def nesting (text : String) : String := "malformed nesting: " ++ text

def iteration (text : String) : String := "iterator protocol violation: " ++ text

/-- A number in hexadecimal notation. -/
def hex (n : Nat) : String := "0x" ++ String.ofList (Text.hexLower n)

def message : Fault → String
  | refusedName error => error.message
  | unknownElement code => s!"unknown element name code {code}"
  | unknownAttribute code => s!"unknown attribute name code {code}"
  | unbound key => "nothing is stored as " ++ Text.quoted key.toList
  | overclaimed wanted available =>
    nesting s!"{wanted} arguments claimed but only {available} recorded at this level"
  | overadopted wanted available =>
    nesting s!"{wanted} entries adopted but only {available} recorded at this level"
  | misplacedArgument position =>
    nesting (s!"argument {position} is not the entry recorded in its position " ++
      "(reused, reordered or recorded by another template)")
  | closeWithoutOpen => nesting "close_element without a matching open element"
  | endWithoutFragment => nesting "fragment_end without a matching fragment_begin"
  | abortWithoutFragment => nesting "fragment_abort without a matching fragment_begin"
  | unfinished levels (some element) =>
    nesting s!"finish with {levels} open level(s), innermost <{element}>"
  | unfinished levels none => nesting s!"finish with {levels} open level(s), innermost fragment"
  | strayAttribute => nesting "attribute recorded outside of any element"
  | voidWithChildren element => s!"void element <{element}> cannot have children"
  | tooLarge => "document too large: index exceeds u32 range"
  | missingRoot offset => s!"unknown instruction at root offset {offset}"
  | rootAttribute offset => s!"attribute at document root (offset {offset})"
  | unexpectedRecord label tag offset =>
    s!"unknown instruction {label} ({hex tag}) at offset {offset}"
  | unterminatedElement offset =>
    s!"unknown instruction: element at offset {offset} is not terminated"
  | forwardReference offset => s!"reference at offset {offset} does not point back"
  | truncated offset => s!"record at offset {offset} is cut off"
  | badLiteral offset size => s!"no literal of {size} bytes at offset {offset}"
  | unknownOpcode word offset => s!"unknown opcode {hex word} at {offset}"
  | noNode word offset => s!"unknown opcode {hex word} at {offset} in node position"
  | noTagEnd word offset => s!"unknown opcode {hex word} at {offset} after attributes"
  | unopenedVoid offset =>
    s!"unbalanced bytecode: SELF_CLOSING_END at {offset} without START_TAG"
  | mismatchedEnd element offset =>
    s!"unbalanced bytecode: END_TAG {element} at {offset} does not close the open element"
  | unclosed elements => s!"unbalanced bytecode: {elements} element(s) left open"
  | endless => "traversal does not end"
  | movedPast => iteration "parent iterator has moved past this node"
  | attributesAfterChildren => iteration "attributes requested after children"
  | attributeAfterChildren =>
    iteration "attribute iterator used after children were requested"
  | childrenTwice => iteration "children requested twice"
  | badOutline message => "bad outline: " ++ message
  | badOutlineName error => "bad outline name: " ++ error.message

end Fault

end HtmlTape
