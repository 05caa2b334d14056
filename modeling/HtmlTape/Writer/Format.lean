import HtmlTape.Writer.Layout

/-!
# Formats

What stands for the marks of a layout: minified markup has no line breaks at all, pretty markup
breaks a line at every mark with one of two line ends, and void tags are closed in one of two
styles.
-/

namespace HtmlTape

/-- Whether lines are broken. -/
inductive Mode where
  | minified
  | pretty
deriving DecidableEq

/-- How a line ends. -/
inductive LineEnd where
  | lf
  | crlf
deriving DecidableEq

def LineEnd.text : LineEnd → String
  | lf => "\n"
  | crlf => "\r\n"

/-- How a void tag is closed. -/
inductive VoidStyle where
  | html
  | selfClosing
deriving DecidableEq

def VoidStyle.text : VoidStyle → String
  | html => ">"
  | selfClosing => " />"

/-- A format of written markup. -/
structure Format where
  mode : Mode
  lineEnd : LineEnd
  voidStyle : VoidStyle
deriving DecidableEq

namespace Format

/-- No line breaks, and void tags as in HTML. -/
def minified : Format := ⟨.minified, .lf, .html⟩

def pretty : Format := ⟨.pretty, .lf, .html⟩

/-- The chunks written for a piece. A break is no chunk at all in minified markup. -/
def chunks (format : Format) : Piece → List String
  | .chunk text => [text]
  | .lineBreak =>
    match format.mode with
    | .minified => []
    | .pretty => [format.lineEnd.text]
  | .voidClose => [format.voidStyle.text]

def allChunks (format : Format) (pieces : List Piece) : List String :=
  pieces.flatMap format.chunks

def text (format : Format) (pieces : List Piece) : String :=
  String.join (format.allChunks pieces)

end Format

end HtmlTape
