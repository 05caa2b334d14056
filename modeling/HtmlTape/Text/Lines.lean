/-!
# Lines

Splitting a text at a separator, and into lines that end in a line feed or in a carriage return
and a line feed.
-/

namespace HtmlTape.Text

/-- The pieces of a text between the occurrences of a separator, one more than there are
separators. -/
def split (separator : Char) : List Char → List (List Char)
  | [] => [[]]
  | c :: rest =>
    if c = separator then [] :: split separator rest
    else
      match split separator rest with
      | [] => [[c]]
      | piece :: pieces => (c :: piece) :: pieces

/-- A line without the carriage return that ends it. -/
def dropReturn (line : List Char) : List Char :=
  if line.getLast? = some '\r' then line.dropLast else line

/-- The lines of a text without their ends. A text that ends in a line feed has no further empty
line after it; a carriage return counts as part of the line's end only before a line feed. -/
def lines (s : List Char) : List (List Char) :=
  let pieces := split '\n' s
  let last := pieces.getLastD []
  pieces.dropLast.map dropReturn ++ (if last.isEmpty then [] else [last])

end HtmlTape.Text
