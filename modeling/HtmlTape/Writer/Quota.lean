import HtmlTape.Writer.Sink

/-!
# Sinks with a quota

Sinks and devices that take a limited number of bytes, remember them, and count how often they
are called.
-/

namespace HtmlTape

/-- The state of a sink with a quota. -/
structure Quota where
  /-- How many more bytes are taken; `none` when there is no limit. -/
  budget : Option Nat
  written : ByteArray
  calls : Nat

namespace Quota

def full (budget : Option Nat) : Quota := ⟨budget, ByteArray.empty, 0⟩

/-- So many bytes are within the quota. -/
def allows (q : Quota) (n : Nat) : Bool :=
  q.budget.all (n ≤ ·)

def take (q : Quota) (bytes : ByteArray) : Quota :=
  { q with budget := q.budget.map (· - bytes.size), written := q.written ++ bytes }

def count (q : Quota) : Quota :=
  { q with calls := q.calls + 1 }

/-- Take a chunk if all of it is within the quota, and fail otherwise. -/
def sink (failure : WriteError) : Sink Quota where
  write q chunk :=
    let bytes := chunk.toUTF8
    if q.allows bytes.size then (q.count.take bytes, none) else (q.count, some failure)

/-- Take at most `portion` bytes at a time, as far as the quota goes. When nothing can be taken,
fail for the given reason, or without one take nothing. -/
def device (portion : Option Nat) (failure : Option String) : Device Quota where
  write q bytes :=
    let offered := bytes.take (portion.getD bytes.length)
    let taken := offered.take (q.budget.getD offered.length)
    match taken, failure with
    | [], some reason => (q.count, .error reason)
    | _, _ => (q.count.take taken.toByteArray, .ok taken.length)

end Quota

end HtmlTape
