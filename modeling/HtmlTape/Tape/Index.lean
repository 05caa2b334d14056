import HtmlTape.Fault

/-!
# Indices

Words have 32 bits. A document with an offset or a length that is no word is too large to be
recorded or compiled.
-/

namespace HtmlTape

/-- The largest word. -/
def lastWord : Nat := 0xFFFFFFFF

/-- An offset or a length as a word. -/
def index (n : Nat) : Except Fault Nat :=
  if n ≤ lastWord then .ok n else .error .tooLarge

theorem index_of_le {n : Nat} (h : n ≤ lastWord) : index n = .ok n := if_pos h

theorem index_of_lt {n : Nat} (h : lastWord < n) : index n = .error .tooLarge :=
  if_neg (Nat.not_le_of_lt h)

end HtmlTape
