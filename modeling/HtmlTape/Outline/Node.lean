/-!
# Outline trees

The nodes that an outline describes. An element lists its attributes as they are written, so
that a name may occur more than once.
-/

namespace HtmlTape.Outline

inductive Node where
  | doctype
  | text (value : String)
  | raw (value : String)
  /-- An attribute without a value is written by its name alone. -/
  | element (name : String) (attributes : List (String × Option String)) (children : List Node)

end HtmlTape.Outline
