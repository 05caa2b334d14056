import HtmlTape.Name.Standard

/-!
# Tokens

Recording an entry answers a token, and passing the token on as an argument hands the entry over
to an element or fragment. A token tells what was recorded and at which offset.
-/

namespace HtmlTape

/-- What a token stands for. -/
inductive TokenKind where
  | attr
  | element
  | text
  | raw
  | doctype
  | fragment
deriving DecidableEq

def TokenKind.label : TokenKind → String
  | attr => "Attribute"
  | element => "Element"
  | text => "Text"
  | raw => "Raw"
  | doctype => "Doctype"
  | fragment => "Fragment"

/-- The answer of a builder call. -/
inductive Token where
  | noop
  /-- An entry was recorded at an offset. -/
  | entry (kind : TokenKind) (record : Nat)
deriving DecidableEq

def Token.record? : Token → Option Nat
  | noop => none
  | entry _ record => some record

structure PreparedAttribute where
  name : AttributeName
  value : String
deriving DecidableEq

end HtmlTape
