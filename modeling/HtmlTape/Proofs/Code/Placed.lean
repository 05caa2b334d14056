import HtmlTape.Code.Document

/-!
# Instructions and their offsets

Where the words of a document are those of a row of instructions, reading from left to right
gives back the instructions (`Document.instructions_eq`), each at its offset, and nothing is left
over at the end (`Document.readableSize_eq`).
-/

namespace HtmlTape

namespace Instruction

def placedAll (offset : Nat) : List Instruction → List (Nat × Instruction)
  | [] => []
  | i :: rest => (offset, i) :: placedAll (offset + i.width) rest

theorem allWords_append (is js : List Instruction) :
    allWords (is ++ js) = allWords is ++ allWords js :=
  List.flatMap_append

@[simp] theorem totalWidth_nil : totalWidth [] = 0 := rfl

@[simp] theorem totalWidth_cons (i : Instruction) (is : List Instruction) :
    totalWidth (i :: is) = i.width + totalWidth is := rfl

@[simp] theorem totalWidth_append (is js : List Instruction) :
    totalWidth (is ++ js) = totalWidth is + totalWidth js := by
  induction is with
  | nil => exact (Nat.zero_add _).symm
  | cons i is ih => rw [List.cons_append, totalWidth_cons, totalWidth_cons, ih, Nat.add_assoc]

theorem length_allWords (is : List Instruction) : (allWords is).length = totalWidth is := by
  induction is with
  | nil => rfl
  | cons i is ih =>
    rw [allWords, List.flatMap_cons, List.length_append, totalWidth_cons, ← ih]
    rfl

theorem placedAll_append (is js : List Instruction) : ∀ offset : Nat,
    placedAll offset (is ++ js) =
      placedAll offset is ++ placedAll (offset + totalWidth is) js := by
  induction is with
  | nil => intro offset; rfl
  | cons i is ih =>
    intro offset
    rw [List.cons_append, placedAll, ih, totalWidth_cons, ← Nat.add_assoc]
    rfl

theorem map_snd_placedAll (is : List Instruction) : ∀ offset : Nat,
    (placedAll offset is).map Prod.snd = is := by
  induction is with
  | nil => intro offset; rfl
  | cons i is ih =>
    intro offset
    rw [placedAll, List.map_cons, ih]

theorem getLast?_placedAll (is : List Instruction) : ∀ offset : Nat,
    (match (placedAll offset is).getLast? with
      | some (pc, i) => pc + i.width
      | none => offset) = offset + totalWidth is := by
  induction is with
  | nil => intro offset; rfl
  | cons i is ih =>
    intro offset
    have := ih (offset + i.width)
    cases is with
    | nil => rfl
    | cons j is =>
      rw [placedAll, placedAll, List.getLast?_cons_cons, ← placedAll, totalWidth_cons,
        ← Nat.add_assoc, ← this]
      cases h : (placedAll (offset + i.width) (j :: is)).getLast? with
      | some p => rfl
      | none =>
        rw [List.getLast?_eq_none_iff] at h
        cases h

theorem readAt?_size (code : Array Nat) : readAt? code code.size = none := by
  cases h : readAt? code code.size with
  | none => rfl
  | some i => exact absurd (lt_size_of_readAt? h) (Nat.lt_irrefl _)

/-- The instruction at the start of a row is read back, whatever stands before the row. -/
theorem readAt?_allWords (before : List Nat) (i : Instruction) (is : List Instruction) :
    readAt? (before ++ allWords (i :: is)).toArray before.length = some i := by
  rw [allWords, List.flatMap_cons, ← List.append_assoc]
  exact readAt?_append before (allWords is) i

end Instruction

namespace Document

theorem instructionsFrom_eq {d : Document} (is : List Instruction) : ∀ before : List Nat,
    d.code = (before ++ Instruction.allWords is).toArray →
    d.instructionsFrom before.length = Instruction.placedAll before.length is := by
  induction is with
  | nil =>
    intro before hcode
    have hsize : before.length = d.code.size := by
      rw [hcode, Instruction.allWords, List.flatMap_nil, List.append_nil]
      rfl
    have hnone : d.instruction? before.length = none := by
      rw [hsize]
      exact Instruction.readAt?_size d.code
    rw [instructionsFrom]
    split
    · rename_i i h
      rw [hnone] at h
      cases h
    · rfl
  | cons i is ih =>
    intro before hcode
    have hread : d.instruction? before.length = some i := by
      rw [instruction?, hcode]
      exact Instruction.readAt?_allWords before i is
    have hrest := ih (before ++ i.words) (by
      rw [hcode, List.append_assoc]
      rfl)
    rw [List.length_append] at hrest
    rw [instructionsFrom]
    split
    · rename_i j h
      rw [hread] at h
      cases h
      exact congrArg _ hrest
    · rename_i h
      rw [hread] at h
      cases h

/-- **Reading a row of instructions from left to right** gives back the instructions. -/
theorem instructions_eq {d : Document} {is : List Instruction}
    (hcode : d.code = (Instruction.allWords is).toArray) :
    d.instructions = Instruction.placedAll 0 is :=
  instructionsFrom_eq is [] hcode

theorem readableSize_eq {d : Document} {is : List Instruction}
    (hcode : d.code = (Instruction.allWords is).toArray) : d.readableSize = d.code.size := by
  have := Instruction.getLast?_placedAll is 0
  rw [Nat.zero_add, ← Instruction.length_allWords, ← List.size_toArray, ← hcode] at this
  rw [readableSize, instructions_eq hcode]
  exact this

end Document

end HtmlTape
