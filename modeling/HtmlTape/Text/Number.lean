/-!
# Numbers in fixed columns

Padding to a column's width and hexadecimal digits, as listings, diffs and escapes print them.
-/

namespace HtmlTape.Text

/-- `s` with copies of `fill` before it until it is `width` characters long; a longer text is
left as it is. -/
def padLeft (fill : Char) (width : Nat) (s : List Char) : List Char :=
  List.replicate (width - s.length) fill ++ s

/-- The decimal digits of `n`, filled with `fill` to four places. -/
def column (fill : Char) (n : Nat) : String :=
  String.ofList (padLeft fill 4 (Nat.toDigits 10 n))

/-- The hexadecimal digits of `n`, in lower case and without leading zeros. -/
def hexLower (n : Nat) : List Char :=
  Nat.toDigits 16 n

/-- The hexadecimal digits of `n`, in upper case and at least two. -/
def hexUpper (n : Nat) : List Char :=
  padLeft '0' 2 ((Nat.toDigits 16 n).map Char.toUpper)

/-- The value of a hexadecimal digit of either case. -/
def hexDigit? (c : Char) : Option Nat :=
  if '0' ≤ c ∧ c ≤ '9' then some (c.toNat - '0'.toNat)
  else if 'a' ≤ c ∧ c ≤ 'f' then some (c.toNat - 'a'.toNat + 10)
  else if 'A' ≤ c ∧ c ≤ 'F' then some (c.toNat - 'A'.toNat + 10)
  else none

/-- The number that a run of hexadecimal digits denotes; `none` when a character is no digit. -/
def hexValue? (digits : List Char) : Option Nat :=
  digits.foldlM (fun value c => (hexDigit? c).map (16 * value + ·)) 0

/-- A list of numbers in square brackets, separated by commas. -/
def numberList (ns : List Nat) : String :=
  "[" ++ ", ".intercalate (ns.map toString) ++ "]"

end HtmlTape.Text
