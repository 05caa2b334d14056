import HtmlTape.Proofs.Tape.Layout
import HtmlTape.Tape.Dump

/-!
# Dumps of blocks

A dump finds its way through the words of a recording with the sizes of elements and a stack.
Where the words are those of blocks, it meets each record once, in the order of the words, and
the references of each element behind the records inside of it: `Block.rowsAll` is the list of
what it meets, and `dumps_blocks` says that the dump has one line for each of them.
-/

namespace HtmlTape

def Leaf.tag : Leaf → Tag
  | text _ => .text
  | raw _ => .raw
  | doctype => .doctype
  | valued .. => .valued
  | boolean _ => .boolean

def Record.tag : Record → Tag
  | leaf l => l.tag
  | element .. => .element
  | fragment _ => .fragment
  | root _ => .root

/-- What a dump meets: a record, or the references at the end of an element. -/
inductive DumpRow where
  | record (offset : Nat) (record : Record)
  | refs (offset : Nat) (refs : List Nat)

namespace DumpRow

def offset : DumpRow → Nat
  | record offset _ | refs offset _ => offset

def label : DumpRow → String
  | record _ r => r.tag.label
  | refs .. => "REFS"

end DumpRow

def Recording.rowLine (t : Recording) : DumpRow → Except Fault String
  | .record offset record => (t.describe record).map (line offset)
  | .refs offset refs => .ok (line offset ("REFS " ++ Text.numberList refs))

namespace Block

def isElement : Block → Bool
  | .element .. => true
  | .leaf _ | .fragment _ => false

mutual

def rows (offset : Nat) : Block → List DumpRow
  | .leaf l => [.record offset (.leaf l)]
  | .element name inner refs =>
    .record offset (Block.element name inner refs).record :: rowsAll (offset + 3) inner ++
      [.refs (offset + 3 + sizeAll inner) refs]
  | .fragment refs => [.record offset (.fragment refs)]

def rowsAll (offset : Nat) : List Block → List DumpRow
  | [] => []
  | b :: rest => b.rows offset ++ rowsAll (offset + b.size) rest

end

/-- **A dump has a row for each record, and one more for each element.** -/
theorem length_rowsAll (blocks : List Block) : ∀ offset : Nat,
    (rowsAll offset blocks).length = (placedAll offset blocks).length +
      (placedAll offset blocks).countP fun p => p.2.isElement := by
  induction blocks using forest_induction with
  | nil => intro offset; rfl
  | cons b rest ih₁ ih₂ =>
    intro offset
    rw [rowsAll, placedAll, List.length_append, List.length_append, List.countP_append, ih₂]
    cases b with
    | leaf l => simp [rows, placed, isElement]; omega
    | fragment refs => simp [rows, placed, isElement]; omega
    | element name inner refs =>
      have := ih₁ (offset + 3)
      simp only [Block.inner] at this
      simp [rows, placed, isElement, this]
      omega

theorem mem_rowsAll (blocks : List Block) : ∀ {offset : Nat} {row : DumpRow},
    row ∈ rowsAll offset blocks → (∃ o refs, row = .refs o refs) ∨
      ∃ p ∈ placedAll offset blocks, row = .record p.1 p.2.record := by
  induction blocks using forest_induction with
  | nil => intro offset row h; cases h
  | cons b rest ih₁ ih₂ =>
    intro offset row h
    rw [rowsAll] at h
    rcases List.mem_append.1 h with h | h
    · cases b with
      | leaf l =>
        obtain rfl := List.mem_singleton.1 h
        exact .inr ⟨_, mem_placedAll_cons.2 (.inl rfl), rfl⟩
      | fragment refs =>
        obtain rfl := List.mem_singleton.1 h
        exact .inr ⟨_, mem_placedAll_cons.2 (.inl rfl), rfl⟩
      | element name inner refs =>
        rcases List.mem_append.1 h with h | h
        · rcases List.mem_cons.1 h with rfl | h
          · exact .inr ⟨_, mem_placedAll_cons.2 (.inl rfl), rfl⟩
          · refine (ih₁ h).imp_right ?_
            rintro ⟨p, hp, rfl⟩
            exact ⟨p, mem_placedAll_cons.2 (.inr (.inl hp)), rfl⟩
        · obtain rfl := List.mem_singleton.1 h
          exact .inl ⟨_, _, rfl⟩
    · refine (ih₂ h).imp_right ?_
      rintro ⟨p, hp, rfl⟩
      exact ⟨p, mem_placedAll_cons.2 (.inr (.inr hp)), rfl⟩

end Block

namespace Recording

variable {t : Recording}

/-! ### One line after another -/

/-- The dump from an offset on has the lines of the rows first, and then goes on from `offset'`. -/
def Dumps (t : Recording) (offset : Nat) (pending : List Pending) (rows : List DumpRow)
    (offset' : Nat) (pending' : List Pending) : Prop :=
  t.dumpFrom offset pending = do
    let first ← rows.mapM t.rowLine
    let rest ← t.dumpFrom offset' pending'
    return first ++ rest

namespace Dumps

variable {offset offset' offset'' : Nat} {pending pending' pending'' : List Pending}
  {rows rows' : List DumpRow}

theorem nil : t.Dumps offset pending [] offset pending := by
  show _ = Except.bind (t.dumpFrom offset pending) _
  cases t.dumpFrom offset pending <;> rfl

theorem append (h : t.Dumps offset pending rows offset' pending')
    (g : t.Dumps offset' pending' rows' offset'' pending'') :
    t.Dumps offset pending (rows ++ rows') offset'' pending'' := by
  rw [Dumps] at h g ⊢
  rw [h, g, List.mapM_append]
  simp only [bind_assoc, pure_bind, List.append_assoc]

/-- The dump of a record, unless references start at its offset. -/
theorem record {record : Record} (hlt : offset < t.words.size)
    (hrecord : t.record offset = .ok record) (hpending : ∀ p ∈ pending.head?, p.start ≠ offset) :
    t.Dumps offset pending [.record offset record] (offset + record.headSize)
      (enclose offset record pending) := by
  have hline : t.dumpLine offset pending = t.recordLine offset pending := by
    cases pending with
    | nil => rfl
    | cons p outer => rw [dumpLine, dif_neg (hpending p rfl)]
  rw [Dumps, List.mapM_cons, List.mapM_nil, dumpFrom, if_pos hlt, hline, recordLine, rowLine,
    hrecord]
  simp only
  cases t.describe record with
  | error fault => rfl
  | ok text =>
    show Except.map _ _ = Except.bind _ _
    cases t.dumpFrom (offset + record.headSize) (enclose offset record pending) <;> rfl

theorem refs {refs : List Nat} (hlt : offset < t.words.size) :
    t.Dumps offset (⟨offset, refs⟩ :: pending) [.refs offset refs] (offset + refs.length + 2)
      pending := by
  rw [Dumps, List.mapM_cons, List.mapM_nil, dumpFrom, if_pos hlt, dumpLine, dif_pos rfl]
  show Except.map _ (t.dumpFrom (offset + refs.length + 2) pending) = Except.bind _ _
  cases t.dumpFrom (offset + refs.length + 2) pending <;> rfl

/-- A dump that has reached the end of the words has no further lines. -/
theorem dumpFrom_eq (h : t.Dumps offset pending rows offset' pending')
    (hend : t.words.size ≤ offset') : t.dumpFrom offset pending = rows.mapM t.rowLine := by
  have hlast : t.dumpFrom offset' pending' = .ok [] := by
    rw [dumpFrom, if_neg (by omega)]
  rw [h, hlast]
  show Except.bind (rows.mapM t.rowLine) (fun first => Except.ok (first ++ [])) = _
  cases rows.mapM t.rowLine with
  | error fault => rfl
  | ok first => exact congrArg Except.ok (List.append_nil first)

end Dumps

/-! ### The lines of blocks -/

theorem dumps_element {offset : Nat} {pending : List Pending} {name : ElementName}
    {inner : List Block} {refs : List Nat}
    (hsize : offset + (Block.element name inner refs).size ≤ t.words.size)
    (hread : t.record offset = .ok (Block.element name inner refs).record)
    (hpending : ∀ p ∈ pending.head?, p.start ≠ offset)
    (hinner : t.Dumps (offset + 3) (⟨offset + 3 + Block.sizeAll inner, refs⟩ :: pending)
      (Block.rowsAll (offset + 3) inner) (offset + 3 + Block.sizeAll inner)
      (⟨offset + 3 + Block.sizeAll inner, refs⟩ :: pending)) :
    t.Dumps offset pending ((Block.element name inner refs).rows offset)
      (offset + (Block.element name inner refs).size) pending := by
  have hstart : offset + (Block.sizeAll inner + refs.length + 5) - 2 - refs.length =
      offset + 3 + Block.sizeAll inner := by omega
  have hstop : offset + 3 + Block.sizeAll inner + refs.length + 2 =
      offset + (Block.sizeAll inner + refs.length + 5) := by omega
  rw [Block.size_element] at hsize ⊢
  have hhead := Dumps.record (by omega) hread hpending
  -- within the element its own references are the next to come, right behind its blocks
  rw [Block.record, enclose, hstart] at hhead
  have hrefs : t.Dumps (offset + 3 + Block.sizeAll inner)
      (⟨offset + 3 + Block.sizeAll inner, refs⟩ :: pending) _ _ pending := Dumps.refs (by omega)
  rw [hstop] at hrefs
  exact (hhead.append hinner).append hrefs

/-- **The dump of blocks** has one line for each of their rows, and then goes on after them. -/
theorem dumps_blocks (blocks : List Block) : ∀ {offset : Nat} {pending : List Pending},
    offset + Block.sizeAll blocks ≤ t.words.size →
    (∀ p ∈ Block.placedAll offset blocks, t.record p.1 = .ok p.2.record) →
    (∀ p ∈ pending.head?, offset + Block.sizeAll blocks ≤ p.start) →
    t.Dumps offset pending (Block.rowsAll offset blocks) (offset + Block.sizeAll blocks)
      pending := by
  induction blocks using Block.forest_induction with
  | nil => intro offset pending _ _ _; exact .nil
  | cons b rest ih₁ ih₂ =>
    intro offset pending hsize hreads hpending
    rw [Block.sizeAll_cons, ← Nat.add_assoc] at hsize hpending ⊢
    have hpos := b.size_pos
    have hread : t.record offset = .ok b.record :=
      hreads _ (Block.mem_placedAll_cons.2 (.inl rfl))
    -- the references that are still to come start behind all of the blocks, not at this one
    have hnot : ∀ p ∈ pending.head?, p.start ≠ offset := fun p hp => by
      have := hpending p hp
      omega
    refine .append ?_ (ih₂ hsize
      (fun p hp => hreads p (Block.mem_placedAll_cons.2 (.inr (.inr hp)))) hpending)
    cases b with
    | leaf l => exact .record (by omega) hread hnot
    | fragment refs =>
      rw [Block.size_fragment, Nat.add_comm refs.length]
      exact .record (by omega) hread hnot
    | element name inner refs =>
      refine dumps_element (by omega) hread hnot (ih₁ ?_ ?_ ?_)
      · rw [Block.size_element] at hsize
        simp only [Block.inner]
        omega
      · exact fun p hp => hreads p (Block.mem_placedAll_cons.2 (.inr (.inl hp)))
      · rintro p ⟨⟩
        exact Nat.le_refl _

end Recording

end HtmlTape
