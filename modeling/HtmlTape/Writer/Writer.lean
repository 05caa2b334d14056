import HtmlTape.Writer.Format
import HtmlTape.Writer.Sink

/-!
# Writers

A writer meets the events of a document and hands markup in its format to a sink, until the sink
refuses a chunk. After that it still follows the events but writes nothing more. Each event has a
handler, which writes what the format asks for and moves the layout on.
-/

namespace HtmlTape

/-- The state of a writer to a sink with states of type `σ`. -/
structure Writer (σ : Type) where
  format : Format
  layout : Layout
  sink : σ
  /-- The failure that has ended the writing. -/
  error : Option WriteError

namespace Writer

variable {σ : Type}

def new (format : Format) (sink : σ) : Writer σ := ⟨format, Layout.start, sink, none⟩

/-- Hand a chunk to the sink unless it has failed. -/
def write (w : Writer σ) (sink : Sink σ) (chunk : String) : Writer σ :=
  match w.error with
  | some _ => w
  | none =>
    let (s, error) := sink.write w.sink chunk
    { w with sink := s, error }

/-- Hand the chunks of an escaped text to the sink unless it has failed, up to the first one that is
refused. -/
def feed (w : Writer σ) (sink : Sink σ) (chunks : List String) : Writer σ :=
  match w.error with
  | some _ => w
  | none =>
    let (s, error) := sink.feed w.sink chunks
    { w with sink := s, error }

/-- End the line, in pretty markup. -/
def newline (w : Writer σ) (sink : Sink σ) : Writer σ :=
  if w.format.mode = .pretty then w.write sink w.format.lineEnd.text else w

def newlineIf (w : Writer σ) (sink : Sink σ) (condition : Bool) : Writer σ :=
  if condition then w.newline sink else w

/-- Write a text as it is in scripts and style sheets, and escaped elsewhere. -/
def writeText (w : Writer σ) (sink : Sink σ) (text : String) : Writer σ :=
  if w.layout.inRawText then w.write sink text else w.feed sink (Markup.textChunks text)

/-- The writer at another layout. -/
def withLayout (w : Writer σ) (layout : Layout) : Writer σ :=
  { w with layout }

def countChild (w : Writer σ) : Writer σ :=
  w.withLayout w.layout.countChild

/-- The writer at another place, among the same open elements. -/
def moveTo (w : Writer σ) (place : Place) : Writer σ :=
  w.withLayout { w.layout with place }

/-! ### Handlers -/

def doctype (w : Writer σ) (sink : Sink σ) : Writer σ :=
  let w := w.countChild
  let w := w.newlineIf sink (w.layout.place != .start)
  (w.write sink "<!DOCTYPE html>").moveTo .blockEnd

def startTag (w : Writer σ) (sink : Sink σ) (name : String) (kind : ElementKind) : Writer σ :=
  let w := w.countChild
  let w := w.newlineIf sink (Layout.breaksBefore w.layout.place kind)
  let w := (w.write sink "<").write sink name
  w.withLayout { w.layout with opened := .ofKind kind :: w.layout.opened }

def attributeName (w : Writer σ) (sink : Sink σ) (name : String) : Writer σ :=
  (w.write sink " ").write sink name

def firstValue (w : Writer σ) (sink : Sink σ) (value : String) : Writer σ :=
  (w.write sink "=\"").feed sink (Markup.valueChunks value)

def nextValue (w : Writer σ) (sink : Sink σ) (value : String) : Writer σ :=
  (w.write sink " ").feed sink (Markup.valueChunks value)

def valueEnd (w : Writer σ) (sink : Sink σ) : Writer σ :=
  w.write sink "\""

def startTagEnd (w : Writer σ) (sink : Sink σ) : Writer σ :=
  let w := w.write sink ">"
  match w.layout.opened with
  | innermost :: _ => w.moveTo innermost.inside
  | [] => w

def voidEnd (w : Writer σ) (sink : Sink σ) : Writer σ :=
  let w :=
    match w.format.voidStyle with
    | .html => w.write sink ">"
    | .selfClosing => w.write sink " />"
  w.withLayout w.layout.leave

def text (w : Writer σ) (sink : Sink σ) (text : String) : Writer σ :=
  if text.isEmpty then w
  else
    let w := w.countChild
    let w :=
      match w.layout.place with
      | .script =>
        ((w.newlineIf sink (!Layout.startsLine text)).writeText sink text).newlineIf sink
          (!Layout.endsLine text)
      | .blockEnd => (w.newlineIf sink (!Layout.startsLine text)).writeText sink text
      | .start | .blockStart | .phrase => w.writeText sink text
    w.moveTo .phrase

def raw (w : Writer σ) (sink : Sink σ) (raw : String) : Writer σ :=
  if raw.isEmpty then w else (w.countChild.write sink raw).moveTo .phrase

def endTag (w : Writer σ) (sink : Sink σ) (name : String) : Writer σ :=
  let w :=
    match w.layout.opened with
    | innermost :: outer =>
      let w := w.withLayout { w.layout with opened := outer }
      let w := w.newlineIf sink (Layout.breaksBeforeEnd w.layout.place innermost)
      w.moveTo innermost.after
    | [] => w
  ((w.write sink "</").write sink name).write sink ">"

def documentEnd (w : Writer σ) (sink : Sink σ) : Writer σ :=
  w.newlineIf sink (w.layout.place != .start)

/-- Meet an event. -/
def event (w : Writer σ) (sink : Sink σ) : Event → Writer σ
  | .documentStart => w
  | .doctype => w.doctype sink
  | .startTag name kind => w.startTag sink name kind
  | .attributeName name => w.attributeName sink name
  | .firstValue value => w.firstValue sink value
  | .nextValue value => w.nextValue sink value
  | .valueEnd => w.valueEnd sink
  | .startTagEnd _ => w.startTagEnd sink
  | .voidEnd => w.voidEnd sink
  | .text text => w.text sink text
  | .raw raw => w.raw sink raw
  | .endTag name _ => w.endTag sink name
  | .documentEnd => w.documentEnd sink

def events (w : Writer σ) (sink : Sink σ) (es : List Event) : Writer σ :=
  es.foldl (fun w e => w.event sink e) w

/-- The outcome of writing: the sink, or the failure that has ended the writing. -/
def finish (w : Writer σ) : Except WriteError σ :=
  match w.error with
  | some e => .error e
  | none => .ok w.sink

end Writer

end HtmlTape
