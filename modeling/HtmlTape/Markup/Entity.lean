/-!
# Character references

A well-formed character reference is `&` and a name, `&#` and decimal digits, or `&#x` and
hexadecimal digits, each ended by a semicolon and each of bounded length. The recogniser looks
at the start of a text only.
-/

namespace HtmlTape.Markup

/-- A letter of ASCII. -/
def isLetter (c : Char) : Bool :=
  ('a' ≤ c && c ≤ 'z') || ('A' ≤ c && c ≤ 'Z')

def isDigit (c : Char) : Bool :=
  '0' ≤ c && c ≤ '9'

def isAlphanumeric (c : Char) : Bool :=
  isLetter c || isDigit c

def isHexDigit (c : Char) : Bool :=
  isDigit c || ('a' ≤ c && c ≤ 'f') || ('A' ≤ c && c ≤ 'F')

/-- The length of a run of one to `limit` characters of a class and the semicolon that ends it,
at the start of `s`. -/
def runLength? (accepts : Char → Bool) (limit : Nat) (s : List Char) : Option Nat :=
  let run := s.takeWhile accepts
  if 0 < run.length ∧ run.length ≤ limit ∧ s[run.length]? = some ';' then
    some (run.length + 1)
  else
    none

/-- The longest name of a character reference. -/
def nameLimit : Nat := 32

/-- The most digits of a decimal character reference. -/
def decimalLimit : Nat := 7

/-- The most digits of a hexadecimal character reference. -/
def hexLimit : Nat := 6

/-- The length of the well-formed character reference at the start of a text, from its `&` to
its semicolon; `none` when the text starts with no such reference. -/
def referenceLength? : List Char → Option Nat
  | '&' :: '#' :: 'x' :: rest => (runLength? isHexDigit hexLimit rest).map (· + 3)
  | '&' :: '#' :: 'X' :: rest => (runLength? isHexDigit hexLimit rest).map (· + 3)
  | '&' :: '#' :: rest => (runLength? isDigit decimalLimit rest).map (· + 2)
  | '&' :: c :: rest =>
    if isLetter c then (runLength? isAlphanumeric nameLimit (c :: rest)).map (· + 1) else none
  | _ => none

end HtmlTape.Markup
