import HtmlTape.Text.Quoted

/-!
# Name tables

A name table gives codes to names, densely from a base and in the order in which the names first
come up. A name that is no legal markup name is refused, and so is a name for which no code of
32 bits is left.
-/

namespace HtmlTape

/-- Why a name gets no code. -/
inductive NameError where
  /-- It is no legal markup name. -/
  | invalid (name : String)
  /-- All codes are taken. -/
  | outOfCodes
deriving DecidableEq

def NameError.message : NameError → String
  | invalid name => "invalid markup name " ++ Text.quoted name.toList
  | outOfCodes => "document too large: name table exhausted"

/-- A character that may stand in a markup name: no control, no blank, no quote, and none of
`<`, `>`, `/` and `=`. -/
def isNameChar (c : Char) : Bool :=
  ' ' < c && c != '\x7f' && c != '"' && c != '\'' && c != '<' && c != '>' && c != '/' && c != '='

/-- A legal markup name is not empty and has only characters of names. -/
def isLegalName (name : String) : Bool :=
  !name.isEmpty && name.toList.all isNameChar

/-- Names with codes from `base` on, in the order of their codes. -/
structure NameTable where
  base : Nat
  names : Array String
deriving DecidableEq

namespace NameTable

/-- The last code there is. -/
def lastCode : Nat := 0xFFFFFFFF

def empty (base : Nat) : NameTable := ⟨base, #[]⟩

def size (t : NameTable) : Nat := t.names.size

def code? (t : NameTable) (name : String) : Option Nat :=
  (t.names.findIdx? (· == name)).map (t.base + ·)

def name? (t : NameTable) (code : Nat) : Option String :=
  if t.base ≤ code then t.names[code - t.base]? else none

/-- The code of a name, a new one if it has none yet, and the table that knows it. -/
def intern (t : NameTable) (name : String) : Except NameError (Nat × NameTable) :=
  match t.code? name with
  | some code => .ok (code, t)
  | none =>
    if !isLegalName name then .error (.invalid name)
    else if lastCode < t.base + t.size then .error .outOfCodes
    else .ok (t.base + t.size, { t with names := t.names.push name })

def clear (t : NameTable) : NameTable := empty t.base

end NameTable

end HtmlTape
