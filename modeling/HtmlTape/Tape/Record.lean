import HtmlTape.Name.Standard
import HtmlTape.Tape.Literal

/-!
# Records

A recording is a row of words. Its records are tagged by their first word:

* a leaf is a text, a piece of raw markup, a doctype or an attribute;
* an element is its tag, its size in words, its name, further records, the references to its
  children, their number and an end mark;
* a fragment or the root is its tag, the number of its references and the references.

A reference is the offset of a record. References, not the place of a record, tell what belongs
to an element; the records between an element's name and its references may belong to any
element.
-/

namespace HtmlTape

/-- The first word of a record, or the end mark of an element. -/
inductive Tag where
  | text
  | raw
  | doctype
  | valued
  | boolean
  | element
  | elementEnd
  | fragment
  | root
deriving DecidableEq

namespace Tag

def word : Tag → Nat
  | text => 0xF0
  | raw => 0xF1
  | doctype => 0xF2
  | valued => 0xF3
  | boolean => 0xF4
  | element => 0xF5
  | elementEnd => 0xF6
  | fragment => 0xF7
  | root => 0xF8

/-- The tag that a word stands for. -/
def ofWord? : Nat → Option Tag
  | 0xF0 => some text
  | 0xF1 => some raw
  | 0xF2 => some doctype
  | 0xF3 => some valued
  | 0xF4 => some boolean
  | 0xF5 => some element
  | 0xF6 => some elementEnd
  | 0xF7 => some fragment
  | 0xF8 => some root
  | _ => none

theorem ofWord?_word (t : Tag) : ofWord? t.word = some t := by
  cases t <;> rfl

def label : Tag → String
  | text => "TEXT"
  | raw => "RAW"
  | doctype => "DOCTYPE"
  | valued => "ATTR_VALUE"
  | boolean => "ATTR_BOOLEAN"
  | element => "ELEMENT"
  | elementEnd => "ELEMENT_END"
  | fragment => "FRAGMENT"
  | root => "ROOT"

def labelOf (w : Nat) : String :=
  match ofWord? w with
  | some t => t.label
  | none => "?"

end Tag

/-- A record that refers to no other record. -/
inductive Leaf where
  | text (value : Literal)
  | raw (value : Literal)
  | doctype
  /-- An attribute with a value. -/
  | valued (name : AttributeName) (value : Literal)
  /-- An attribute that is written by its name alone. -/
  | boolean (name : AttributeName)
deriving DecidableEq

namespace Leaf

def words : Leaf → List Nat
  | text value => [Tag.text.word, value.offset, value.size]
  | raw value => [Tag.raw.word, value.offset, value.size]
  | doctype => [Tag.doctype.word]
  | valued name value => [Tag.valued.word, name.code, value.offset, value.size]
  | boolean name => [Tag.boolean.word, name.code]

/-- Attributes are written into the start tag of their element. -/
def isAttribute : Leaf → Bool
  | valued .. | boolean .. => true
  | text .. | raw .. | doctype => false

end Leaf

/-- A record of a recording. -/
inductive Record where
  | leaf (leaf : Leaf)
  /-- An element of `size` words with references to its attributes and children. -/
  | element (name : ElementName) (size : Nat) (refs : List Nat)
  | fragment (refs : List Nat)
  | root (refs : List Nat)
deriving DecidableEq

namespace Record

def isAttribute : Record → Bool
  | leaf l => l.isAttribute
  | _ => false

/-- How many words of a record come before any record that lies within it. -/
def headSize : Record → Nat
  | leaf l => l.words.length
  | element .. => 3
  | fragment refs | root refs => 2 + refs.length

theorem headSize_pos (r : Record) : 0 < r.headSize := by
  cases r with
  | leaf l => cases l <;> simp [headSize, Leaf.words]
  | element => simp [headSize]
  | fragment => exact Nat.add_pos_left Nat.two_pos _
  | root => exact Nat.add_pos_left Nat.two_pos _

/-- The references of the record at `offset` when it is an element of `size` words: where they
start, and the references themselves. -/
def refsOf (words : Array Nat) (offset size : Nat) : Except Fault (List Nat) :=
  let stop := offset + size
  if words[stop - 1]? ≠ some Tag.elementEnd.word then .error (.unterminatedElement offset)
  else
    match words[stop - 2]? with
    | some n =>
      if n + 5 ≤ size then .ok (words.extract (stop - 2 - n) (stop - 2)).toList
      else .error (.truncated offset)
    | none => .error (.truncated offset)

/-- The references in a row after the number of them at `offset + 1`. -/
def rowAt (words : Array Nat) (offset : Nat) : Except Fault (List Nat) :=
  match words[offset + 1]? with
  | some n =>
    if offset + 2 + n ≤ words.size then
      .ok (words.extract (offset + 2) (offset + 2 + n)).toList
    else .error (.truncated offset)
  | none => .error (.truncated offset)

/-- The record that starts at `offset`. -/
def readAt (words : Array Nat) (offset : Nat) : Except Fault Record :=
  match words[offset]? with
  | none => .error (.truncated offset)
  | some w =>
    match Tag.ofWord? w, words[offset + 1]?, words[offset + 2]?, words[offset + 3]? with
    | some .text, some o, some n, _ => .ok (.leaf (.text ⟨o, n⟩))
    | some .raw, some o, some n, _ => .ok (.leaf (.raw ⟨o, n⟩))
    | some .doctype, _, _, _ => .ok (.leaf .doctype)
    | some .valued, some name, some o, some n => .ok (.leaf (.valued ⟨name⟩ ⟨o, n⟩))
    | some .boolean, some name, _, _ => .ok (.leaf (.boolean ⟨name⟩))
    | some .element, some size, some name, _ =>
      (refsOf words offset size).map (.element ⟨name⟩ size)
    | some .fragment, some _, _, _ => (rowAt words offset).map .fragment
    | some .root, some _, _, _ => (rowAt words offset).map .root
    | some .elementEnd, _, _, _ => .error (.unexpectedRecord Tag.elementEnd.label w offset)
    | none, _, _, _ => .error (.unexpectedRecord "?" w offset)
    | _, _, _, _ => .error (.truncated offset)

/-- The words of a leaf read back as the leaf, whatever surrounds them. -/
theorem readAt_leaf (before after : List Nat) (l : Leaf) :
    readAt (before ++ l.words ++ after).toArray before.length = .ok (.leaf l) := by
  cases l <;> simp [readAt, Leaf.words, Tag.ofWord?_word]

end Record

end HtmlTape
