import HtmlTape.Name.Table

/-!
# Indexed name tables

A name table as it is kept: beside the row of its names there is a map that has the code of each of
them.  A name is looked up in the map, and a code in the row.
-/

namespace HtmlTape

/-- Names with codes from `base` on, and a map from the names to their codes, as pairs of which
the first one for a name counts. -/
structure IndexedTable where
  base : Nat
  names : Array String
  codes : List (String × Nat)
deriving DecidableEq

namespace IndexedTable

open NameTable (lastCode)

def empty (base : Nat) : IndexedTable := ⟨base, #[], []⟩

def size (t : IndexedTable) : Nat := t.names.size

def code? (t : IndexedTable) (name : String) : Option Nat := t.codes.lookup name

def name? (t : IndexedTable) (code : Nat) : Option String :=
  if t.base ≤ code then t.names[code - t.base]? else none

/-- The code of a name, a new one if the map has none.  The number of the name among the names must
be a word, and its code too. -/
def intern (t : IndexedTable) (name : String) : Except NameError (Nat × IndexedTable) :=
  match t.code? name with
  | some code => .ok (code, t)
  | none =>
    if !isLegalName name then .error (.invalid name)
    else if lastCode < t.size then .error .outOfCodes
    else if lastCode < t.base + t.size then .error .outOfCodes
    else
      let code := t.base + t.size
      .ok (code, { t with names := t.names.push name, codes := (name, code) :: t.codes })

def clear (t : IndexedTable) : IndexedTable := { t with names := #[], codes := [] }

end IndexedTable

end HtmlTape
