import HtmlTape.Name.Basic
import HtmlTape.Notice
import HtmlTape.Tape.Record

/-!
# Recordings

What a recorder hands over when a document is finished: the words, the pool of literals, the
names, the offset of the root record, and some figures about how the recording came about.
-/

namespace HtmlTape

/-- Figures about a recording. -/
structure Counters where
  elements : Nat
  attributes : Nat
  texts : Nat
  fragments : Nat
  /-- References written when levels were closed. -/
  splices : Nat
  /-- The largest number of levels that were open at once. -/
  maxDepth : Nat
deriving DecidableEq

def Counters.zero : Counters := ⟨0, 0, 0, 0, 0, 0⟩

structure Recording where
  words : Array Nat
  pool : String
  names : Names
  root : Nat
  counters : Counters
deriving DecidableEq

namespace Recording

def record (t : Recording) (offset : Nat) : Except Fault Record :=
  Record.readAt t.words offset

/-- The remark on a finished recording. -/
def notice (t : Recording) : Notice where
  topic := "template.recorder"
  message := s!"recorded {t.words.size} words, {t.pool.utf8ByteSize} pool bytes, " ++
    s!"{t.counters.elements} elements"

end Recording

end HtmlTape
