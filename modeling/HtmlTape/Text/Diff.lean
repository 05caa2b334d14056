import HtmlTape.Text.Escaped
import HtmlTape.Text.Lines
import HtmlTape.Text.Number

/-!
# Line differences

A report on the first line at which two lists of lines differ, with two lines of context on
either side.
-/

namespace HtmlTape.Text

/-- What stands for a line that one of the two sides does not have. -/
def missingLine : String := "<missing>"

/-- The index of the first line at which the two sides differ, a line that one side lacks being
compared as `missingLine`. -/
def firstMismatch? : List String → List String → Option Nat
  | [], [] => none
  | e :: expected, [] =>
    if e = missingLine then (firstMismatch? expected []).map (· + 1) else some 0
  | [], a :: actual =>
    if missingLine = a then (firstMismatch? [] actual).map (· + 1) else some 0
  | e :: expected, a :: actual =>
    if e = a then (firstMismatch? expected actual).map (· + 1) else some 0

/-- The line of each side at index `i`; the marker points at the mismatch. -/
def diffRow (expected actual : List String) (mismatch i : Nat) : String :=
  let marker := if i = mismatch then ">" else " "
  let number := marker ++ " " ++ column ' ' (i + 1)
  number ++ "  expected: " ++ expected.getD i missingLine ++ "\n" ++
    number ++ "    actual: " ++ actual.getD i missingLine ++ "\n"

/-- The report on two lists of lines: the surroundings of the first mismatch, if there is one,
and how many lines each side has. -/
def diffLines (expected actual : List String) : String :=
  let found :=
    match firstMismatch? expected actual with
    | none => ""
    | some i =>
      let first := i - 2
      let stop := min (i + 3) (max expected.length actual.length)
      s!"first mismatch at line {i + 1} (showing {first + 1}..={stop}):\n" ++
        String.join ((List.range' first (stop - first)).map (diffRow expected actual i))
  found ++ s!"expected {expected.length} lines, actual {actual.length} lines\n"

/-- The report on two texts, compared line by line in escaped form. -/
def diffText (expected actual : List Char) : String :=
  let escaped (s : List Char) : List String := (split '\n' s).map (String.ofList <| escape ·)
  diffLines (escaped expected) (escaped actual)

end HtmlTape.Text
