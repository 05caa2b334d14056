import HtmlTape.Notice

/-!
# Sinks

A sink takes written markup chunk by chunk and may refuse a chunk. The first refusal ends the
writing; no later chunk reaches the sink.

A formatter takes a text as a whole or fails without a reason. A device takes bytes, as many at a
time as it likes. As a sink, it is handed the bytes of a chunk until it has taken all of them.
-/

namespace HtmlTape

/-- Why markup could not be written. -/
inductive WriteError where
  /-- The place to be written to has failed. -/
  | format
  /-- A device has failed. -/
  | io (reason : String)
deriving DecidableEq

namespace WriteError

def message : WriteError → String
  | format => "formatter error while rendering"
  | io reason => "i/o error while rendering: " ++ reason

def notice (e : WriteError) : Notice where
  topic := "template.writer"
  message := "sink failed, discarding remaining output: " ++ e.message

end WriteError

/-- A sink with states of type `σ`. -/
structure Sink (σ : Type) where
  /-- Take a chunk or refuse it. -/
  write : σ → String → σ × Option WriteError

namespace Sink

/-- Hand over chunks until one of them is refused. -/
def feed {σ : Type} (sink : Sink σ) (s : σ) : List String → σ × Option WriteError
  | [] => (s, none)
  | chunk :: chunks =>
    match sink.write s chunk with
    | (s, none) => sink.feed s chunks
    | (s, some e) => (s, some e)

def text : Sink String where
  write s chunk := (s ++ chunk, none)

end Sink

/-- A formatter with states of type `σ`. -/
structure Formatter (σ : Type) where
  /-- Take a text and answer whether it was taken. -/
  write : σ → String → σ × Bool

namespace Formatter

def sink {σ : Type} (formatter : Formatter σ) : Sink σ where
  write s chunk :=
    let (s, taken) := formatter.write s chunk
    (s, if taken then none else some .format)

def text : Formatter String where
  write s chunk := (s ++ chunk, true)

end Formatter

/-- A device with states of type `σ`. -/
structure Device (σ : Type) where
  /-- Take some bytes from the front and answer how many, or fail. -/
  write : σ → List UInt8 → σ × Except String Nat

namespace Device

/-- Hand over bytes until all are taken. A device that takes none of them has failed. -/
def writeAll {σ : Type} (device : Device σ) (s : σ) (bytes : List UInt8) :
    σ × Option String :=
  if bytes.isEmpty then (s, none)
  else
    match device.write s bytes with
    | (s, .error reason) => (s, some reason)
    | (s, .ok 0) => (s, some "failed to write whole buffer")
    | (s, .ok (taken + 1)) => device.writeAll s (bytes.drop (taken + 1))
termination_by bytes.length
decreasing_by
  cases bytes with
  | nil => contradiction
  | cons => simp only [List.length_drop, List.length_cons]; omega

def sink {σ : Type} (device : Device σ) : Sink σ where
  write s chunk :=
    let (s, failure) := device.writeAll s chunk.toUTF8.toList
    (s, failure.map .io)

end Device

end HtmlTape
