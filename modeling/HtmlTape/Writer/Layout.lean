import HtmlTape.Event.Basic
import HtmlTape.Markup.Escape

/-!
# Layout

How a document is laid out, before any choice of format. The events of a document become a row
of pieces: chunks of text, marks at which a line may be broken, and marks at which a void tag is
closed. What stands in a mark's place is a matter of the format, but the pieces are not, so that
all formats of a document share one skeleton.
-/

namespace HtmlTape

/-- A piece of written markup. -/
inductive Piece where
  /-- Text that is the same in every format. -/
  | chunk (text : String)
  /-- A line may be broken here. -/
  | lineBreak
  /-- A void tag is closed here. -/
  | voidClose
deriving DecidableEq

/-- What was written last. -/
inductive Place where
  | start
  /-- The start tag of a block. -/
  | blockStart
  /-- The end of a block, or a doctype. -/
  | blockEnd
  /-- Inline content. -/
  | phrase
  /-- The start tag or the end of a script or style sheet. -/
  | script
deriving DecidableEq

structure OpenElement where
  /-- The place after the element. -/
  after : Place
  /-- The place after its start tag. -/
  inside : Place
  /-- How many things were written inside of it. -/
  children : Nat
  /-- Its text is written without escaping. -/
  isRawText : Bool
deriving DecidableEq

/-- An element that was just opened, by its kind. -/
def OpenElement.ofKind (kind : ElementKind) : OpenElement :=
  if kind.isRawText then ⟨.script, .script, 0, true⟩
  else if kind.isPhrasing then ⟨.phrase, .phrase, 0, false⟩
  else ⟨.blockEnd, .blockStart, 0, false⟩

structure Layout where
  place : Place
  /-- The open elements, the innermost first. -/
  opened : List OpenElement
deriving DecidableEq

namespace Layout

def start : Layout := ⟨.start, []⟩

/-- One more thing is written inside of the innermost element. -/
def countChild (s : Layout) : Layout :=
  match s.opened with
  | innermost :: outer =>
    { s with opened := { innermost with children := innermost.children + 1 } :: outer }
  | [] => s

/-- The innermost element is a script or style sheet. -/
def inRawText (s : Layout) : Bool :=
  match s.opened with
  | innermost :: _ => innermost.isRawText
  | [] => false

/-- The state after the innermost element. -/
def leave (s : Layout) : Layout :=
  match s.opened with
  | innermost :: outer => ⟨innermost.after, outer⟩
  | [] => s

def breakIf (condition : Bool) : List Piece :=
  if condition then [.lineBreak] else []

/-- A character that begins or ends a line. -/
def isLineEnd (c : Char) : Bool :=
  c == '\n' || c == '\r'

def startsLine (text : String) : Bool :=
  text.toList.head?.any isLineEnd

def endsLine (text : String) : Bool :=
  text.toList.getLast?.any isLineEnd

def textPieces (s : Layout) (text : String) : List Piece :=
  if s.inRawText then [.chunk text] else (Markup.textChunks text).map .chunk

def valuePieces (value : String) : List Piece :=
  (Markup.valueChunks value).map .chunk

/-- A line is broken before the start tag of an element of that kind. -/
def breaksBefore (place : Place) (kind : ElementKind) : Bool :=
  if kind.isPhrasing then place == .blockEnd else place != .start

/-- A line is broken before the end tag of the element. -/
def breaksBeforeEnd (place : Place) (element : OpenElement) : Bool :=
  0 < element.children &&
    if element.after = .phrase then place == .blockEnd else place != .phrase

/-- The pieces of an event, and the state afterwards. -/
def step (s : Layout) : Event → List Piece × Layout
  | .documentStart => ([], s)
  | .doctype =>
    (breakIf (s.place != .start) ++ [.chunk "<!DOCTYPE html>"],
      { s.countChild with place := .blockEnd })
  | .startTag name kind =>
    (breakIf (breaksBefore s.place kind) ++ [.chunk "<", .chunk name],
      { s with opened := .ofKind kind :: s.countChild.opened })
  | .attributeName name => ([.chunk " ", .chunk name], s)
  | .firstValue value => (.chunk "=\"" :: valuePieces value, s)
  | .nextValue value => (.chunk " " :: valuePieces value, s)
  | .valueEnd => ([.chunk "\""], s)
  | .startTagEnd _ =>
    ([.chunk ">"],
      match s.opened with
      | innermost :: _ => { s with place := innermost.inside }
      | [] => s)
  | .voidEnd => ([.voidClose], s.leave)
  | .text text =>
    if text.isEmpty then ([], s)
    else
      (breakIf ((s.place == .script || s.place == .blockEnd) && !startsLine text) ++
        s.textPieces text ++ breakIf (s.place == .script && !endsLine text),
        { s.countChild with place := .phrase })
  | .raw raw =>
    if raw.isEmpty then ([], s)
    else ([.chunk raw], { s.countChild with place := .phrase })
  | .endTag name _ =>
    let close : List Piece := [.chunk "</", .chunk name, .chunk ">"]
    match s.opened with
    | innermost :: _ => (breakIf (breaksBeforeEnd s.place innermost) ++ close, s.leave)
    | [] => (close, s)
  | .documentEnd => (breakIf (s.place != .start), s)

def run (s : Layout) : List Event → List Piece × Layout
  | [] => ([], s)
  | event :: events =>
    let (pieces, s) := s.step event
    let (rest, s) := s.run events
    (pieces ++ rest, s)

theorem run_append (s : Layout) (a b : List Event) :
    s.run (a ++ b) =
      ((s.run a).1 ++ ((s.run a).2.run b).1, ((s.run a).2.run b).2) := by
  induction a generalizing s with
  | nil => rfl
  | cons event a ih => simp [run, ih]

end Layout

def pieces (events : List Event) : List Piece :=
  (Layout.start.run events).1

end HtmlTape
