import HtmlTape.Code.Instruction
import HtmlTape.Name.Basic

/-!
# Compiled documents

A compiled document is its bytecode, the pool of its literals and its names. It is read from
left to right, or in jumps over whole elements.
-/

namespace HtmlTape

structure Document where
  code : Array Nat
  pool : String
  names : Names
deriving DecidableEq

namespace Document

/-- The text that a literal names. -/
def literal (d : Document) (l : Literal) : Except Fault String :=
  l.read d.pool

/-- The instruction that starts at `pc`. -/
def instruction? (d : Document) (pc : Nat) : Option Instruction :=
  Instruction.readAt? d.code pc

/-- The word at `pc`, or zero behind the last one. -/
def word (d : Document) (pc : Nat) : Nat :=
  d.code.getD pc 0

/-- The instructions from `pc` on with their offsets, as far as they can be read. -/
def instructionsFrom (d : Document) (pc : Nat) : List (Nat × Instruction) :=
  match h : d.instruction? pc with
  | some i =>
    have : pc < d.code.size := Instruction.lt_size_of_readAt? h
    have := i.width_pos
    (pc, i) :: instructionsFrom d (pc + i.width)
  | none => []
termination_by d.code.size - pc

def instructions (d : Document) : List (Nat × Instruction) :=
  d.instructionsFrom 0

/-- The offset after the instructions that can be read. -/
def readableSize (d : Document) : Nat :=
  match d.instructions.getLast? with
  | some (pc, i) => pc + i.width
  | none => 0

/-! ### Attributes of an element -/

/-- The values from `pc` on, and the offset after them. -/
def valuesFrom (d : Document) (pc : Nat) : List Literal × Nat :=
  match h : d.instruction? pc with
  | some (.firstValue l) | some (.nextValue l) =>
    have : pc < d.code.size := Instruction.lt_size_of_readAt? h
    let rest := valuesFrom d (pc + 3)
    (l :: rest.1, rest.2)
  | some .valueEnd => ([], pc + 1)
  | _ => ([], pc)
termination_by d.code.size - pc

theorem le_valuesFrom (d : Document) (pc : Nat) : pc ≤ (d.valuesFrom pc).2 := by
  fun_induction d.valuesFrom pc with
  | case1 pc l h hlt rest ih => exact Nat.le_trans (by omega) ih
  | case2 pc l h hlt rest ih => exact Nat.le_trans (by omega) ih
  | case3 => exact Nat.le_succ _
  | case4 => exact Nat.le_refl _

/-- The attributes from `pc` on, and the offset after them. -/
def groupsFrom (d : Document) (pc : Nat) : List AttributeGroup × Nat :=
  match h : d.instruction? pc with
  | some (.attributeName name) =>
    have : pc < d.code.size := Instruction.lt_size_of_readAt? h
    have := d.le_valuesFrom (pc + 2)
    let values := d.valuesFrom (pc + 2)
    let rest := groupsFrom d values.2
    (⟨name, values.1⟩ :: rest.1, rest.2)
  | _ => ([], pc)
termination_by d.code.size - pc

end Document

end HtmlTape
