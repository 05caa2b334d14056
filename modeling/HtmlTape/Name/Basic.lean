import HtmlTape.Fault
import HtmlTape.Name.Standard

/-!
# The names of a document

The standard names together with the names of a document's own. A standard name always has its
standard code; any other name is interned, and its code lies after the standard ones.
-/

namespace HtmlTape

/-- The names a document uses beside the standard ones. -/
structure Names where
  elements : NameTable
  attributes : NameTable
deriving DecidableEq

namespace Names

def standard : Names where
  elements := NameTable.empty standardElements.size
  attributes := NameTable.empty standardAttributes.size

def customSize (names : Names) : Nat :=
  names.elements.size + names.attributes.size

def clear (names : Names) : Names where
  elements := names.elements.clear
  attributes := names.attributes.clear

/-! ### Elements -/

/-- The code of an element name, a new one if the name is neither standard nor known. -/
def internElement (names : Names) (name : String) : Except NameError (ElementName × Names) :=
  match standardElement? name with
  | some code => .ok (code, names)
  | none => do
    let (code, elements) ← names.elements.intern name
    return (⟨code⟩, { names with elements })

/-- The code of an element name that is standard or known. -/
def elementNamed? (names : Names) (name : String) : Option ElementName :=
  (standardElement? name).or ((names.elements.code? name).map ElementName.mk)

def elementText? (names : Names) (name : ElementName) : Option String :=
  match standardElements[name.code]? with
  | some (text, _) => some text
  | none => names.elements.name? name.code

/-- The text of an element name; a code of another document is a fault. -/
def elementText (names : Names) (name : ElementName) : Except Fault String :=
  match names.elementText? name with
  | some text => .ok text
  | none => .error (.unknownElement name.code)

/-! ### Attributes -/

def internAttribute (names : Names) (name : String) : Except NameError (AttributeName × Names) :=
  match standardAttribute? name with
  | some code => .ok (code, names)
  | none => do
    let (code, attributes) ← names.attributes.intern name
    return (⟨code⟩, { names with attributes })

def attributeNamed? (names : Names) (name : String) : Option AttributeName :=
  (standardAttribute? name).or ((names.attributes.code? name).map AttributeName.mk)

def attributeText? (names : Names) (name : AttributeName) : Option String :=
  match standardAttributes[name.code]? with
  | some text => some text
  | none => names.attributes.name? name.code

def attributeText (names : Names) (name : AttributeName) : Except Fault String :=
  match names.attributeText? name with
  | some text => .ok text
  | none => .error (.unknownAttribute name.code)

end Names

end HtmlTape
