import HtmlTape.Event.Play
import HtmlTape.Writer.Writer

/-!
# Rendering

Rendering a document is playing all of its events to a writer.
-/

namespace HtmlTape.Document

variable {σ : Type}

/-- Write a document to a sink. -/
def write (d : Document) (format : Format) (sink : Sink σ) (s : σ) : Except Fault (Writer σ) :=
  d.events.map fun es => (Writer.new format s).events sink es

def display (d : Document) (format : Format) (formatter : Formatter σ) (s : σ) :
    Except Fault (σ × Bool) :=
  (d.write format formatter.sink s).map fun w => (w.sink, w.error.isNone)

def writeTo (d : Document) (format : Format) (device : Device σ) (s : σ) :
    Except Fault (Writer σ) :=
  d.write format device.sink s

/-- Write a document to a text, which takes every chunk. -/
def render (d : Document) (format : Format) : Except Fault String :=
  (d.write format Sink.text "").map Writer.sink

end HtmlTape.Document
