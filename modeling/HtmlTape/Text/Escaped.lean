import HtmlTape.Text.Number

/-!
# Backslash escapes

`escape` writes a text so that it stays on one line and holds no bare quote: backslash, quote,
line breaks and tabs have a letter each, and every other control character is written by its
code point in braces. `unescape?` reads such text back and also accepts code points that
`escape` never writes.
-/

namespace HtmlTape.Text

/-- One character with backslash escapes. -/
def escapeChar (c : Char) : List Char :=
  if c = '\\' then ['\\', '\\']
  else if c = '"' then ['\\', '"']
  else if c = '\n' then ['\\', 'n']
  else if c = '\r' then ['\\', 'r']
  else if c = '\t' then ['\\', 't']
  else if c < ' ' then '\\' :: 'u' :: '\x7b' :: (hexUpper c.toNat ++ ['\x7d'])
  else [c]

def escape (s : List Char) : List Char :=
  s.flatMap escapeChar

/-- The character with code point `n`; `none` above the last code point and for surrogates. -/
def scalar? (n : Nat) : Option Char :=
  if n.isValidChar then some (Char.ofNat n) else none

/-- The character whose code point at least one hexadecimal digit denotes. -/
def digitsScalar? (digits : List Char) : Option Char :=
  if digits.isEmpty then none else (hexValue? digits).bind scalar?

/-- The character that the digits between braces denote; a single plus sign may precede them. -/
def codePoint? : List Char → Option Char
  | '+' :: digits => digitsScalar? digits
  | digits => digitsScalar? digits

/-- Where the reader of escaped text stands. -/
inductive EscapeState where
  /-- Between escapes. -/
  | plain
  /-- After a backslash. -/
  | backslash
  /-- After the letter that announces a code point. -/
  | codePoint
  /-- Inside of the braces, with the digits read so far, the last one first. -/
  | digits (seen : List Char)
deriving DecidableEq

/-- The character that a letter after a backslash stands for. -/
def escapedLetter? (c : Char) : Option Char :=
  if c = '\\' then some '\\'
  else if c = '"' then some '"'
  else if c = 'n' then some '\n'
  else if c = 'r' then some '\r'
  else if c = 't' then some '\t'
  else none

/-- Read escaped text from a state; `none` on a malformed or unfinished escape. -/
def unescapeFrom? : EscapeState → List Char → Option (List Char)
  | .plain, [] => some []
  | .plain, c :: rest =>
    if c = '\\' then unescapeFrom? .backslash rest
    else (unescapeFrom? .plain rest).map (c :: ·)
  | .backslash, c :: rest =>
    if c = 'u' then unescapeFrom? .codePoint rest
    else
      match escapedLetter? c with
      | some d => (unescapeFrom? .plain rest).map (d :: ·)
      | none => none
  | .codePoint, c :: rest =>
    if c = '\x7b' then unescapeFrom? (.digits []) rest else none
  | .digits seen, c :: rest =>
    if c = '\x7d' then
      match codePoint? seen.reverse with
      | some d => (unescapeFrom? .plain rest).map (d :: ·)
      | none => none
    else unescapeFrom? (.digits (c :: seen)) rest
  | _, [] => none

/-- The text that backslash escapes stand for; `none` on a malformed escape. -/
def unescape? (s : List Char) : Option (List Char) :=
  unescapeFrom? .plain s

end HtmlTape.Text
