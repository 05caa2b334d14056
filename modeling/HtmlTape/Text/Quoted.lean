import HtmlTape.Text.Number
import HtmlTape.Text.Unicode

/-!
# Quoted text

A text between double quotes, as dumps and messages show it. Characters without a visible form
of their own are written by their code point, so that every quoted text fits on one line and
no two texts look alike.
-/

namespace HtmlTape.Text

/-- A character that quoted text writes by its code point: one without a printable form, and
one that would merge with the character before it. -/
def isInvisible (c : Char) : Bool :=
  let n := c.toNat
  if n < 0x80 then n < 0x20 || n == 0x7F
  else inRanges graphemeExtendRanges n || inRanges unprintableRanges n

def quotedChar (c : Char) : List Char :=
  if c = '"' then ['\\', '"']
  else if c = '\\' then ['\\', '\\']
  else if c = '\n' then ['\\', 'n']
  else if c = '\r' then ['\\', 'r']
  else if c = '\t' then ['\\', 't']
  else if c = '\x00' then ['\\', '0']
  else if isInvisible c then '\\' :: 'u' :: '\x7b' :: (hexLower c.toNat ++ ['\x7d'])
  else [c]

/-- A text in double quotes. -/
def quoted (s : List Char) : String :=
  String.ofList ('"' :: (s.flatMap quotedChar ++ ['"']))

end HtmlTape.Text
