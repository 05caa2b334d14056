import HtmlTape.Outline.Line
import HtmlTape.Text.Lines

/-!
# Reading an outline

An outline has one node on each line, indented by two blanks for each element around it. Lines
without text and lines that start with `#` say nothing.

The elements that may still get children wait on a stack. A line closes as many of them as its
indentation asks for; a closed element becomes a child of the element around it.
-/

namespace HtmlTape.Outline

/-- What is wrong with a line. -/
inductive LineFault where
  /-- The indentation is no multiple of the step. -/
  | oddIndent (indent : Nat)
  /-- The line is indented deeper than inside of the last open element. -/
  | deepIndent (depth opened : Nat)
  | malformed (error : LineError)
deriving DecidableEq

/-- The first line that cannot be read, and why. -/
structure ParseError where
  line : Nat
  fault : LineFault
deriving DecidableEq

/-- How many blanks go with each level. -/
def indentStep : Nat := 2

def LineFault.message : LineFault → String
  | oddIndent indent => s!"indent of {indent} is not a multiple of {indentStep}"
  | deepIndent depth opened =>
    s!"unexpected indent: depth {depth} under {opened} open element(s)"
  | malformed error => error.message

def ParseError.message (e : ParseError) : String :=
  s!"line {e.line}: " ++ e.fault.message

/-- An element that may still get children. -/
structure OpenNode where
  name : String
  attributes : List (String × Option String)
  children : List Node

def OpenNode.close (o : OpenNode) : Node :=
  .element o.name o.attributes o.children

/-- What was read so far. -/
structure Forest where
  roots : List Node
  /-- The open elements, the innermost first. -/
  opened : List OpenNode

namespace Forest

def empty : Forest := ⟨[], []⟩

def addNode (f : Forest) (node : Node) : Forest :=
  match f.opened with
  | innermost :: outer =>
    { f with opened := { innermost with children := innermost.children ++ [node] } :: outer }
  | [] => { f with roots := f.roots ++ [node] }

def closeInnermost (f : Forest) : Forest :=
  match f.opened with
  | innermost :: outer => { f with opened := outer }.addNode innermost.close
  | [] => f

/-- Close the innermost `n` elements. -/
def close (f : Forest) : Nat → Forest
  | 0 => f
  | n + 1 => f.closeInnermost.close n

/-- Close elements until at most `depth` of them are open. -/
def closeTo (f : Forest) (depth : Nat) : Forest :=
  f.close (f.opened.length - depth)

/-- Add the node of a line, which stays open if it is an element. -/
def addLine (f : Forest) : Node → Forest
  | .element name attributes children =>
    { f with opened := ⟨name, attributes, children⟩ :: f.opened }
  | node => f.addNode node

/-- The whole forest, with all elements closed. -/
def nodes (f : Forest) : List Node :=
  (f.closeTo 0).roots

end Forest

/-- The indentation of a line without the blanks at its end, and what follows it. -/
def splitIndent (line : List Char) : Nat × List Char :=
  let line := Text.trimEnd line
  ((line.takeWhile (· == ' ')).length, line.dropWhile (· == ' '))

/-- A line that says nothing. -/
def isComment (body : List Char) : Bool :=
  body.head?.all (· == '#')

def readLine (f : Forest) (line : List Char) : Except LineFault Forest :=
  let (indent, body) := splitIndent line
  let depth := indent / indentStep
  if isComment body then .ok f
  else if indent % indentStep ≠ 0 then .error (.oddIndent indent)
  else if f.opened.length < depth then .error (.deepIndent depth f.opened.length)
  else
    match lineNode body with
    | .error e => .error (.malformed e)
    | .ok node => .ok ((f.closeTo depth).addLine node)

/-- Add lines, the first of them being line number `number`. -/
def readLines (f : Forest) (number : Nat) : List (List Char) → Except ParseError Forest
  | [] => .ok f
  | line :: lines =>
    match readLine f line with
    | .error fault => .error ⟨number, fault⟩
    | .ok f => readLines f (number + 1) lines

def parse (source : String) : Except ParseError (List Node) :=
  (readLines Forest.empty 1 (Text.lines source.toList)).map Forest.nodes

end HtmlTape.Outline
