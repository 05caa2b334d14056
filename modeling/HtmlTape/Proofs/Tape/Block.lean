import HtmlTape.Tape.Recording

/-!
# Blocks

A block is a complete record with everything that lies inside of it: a leaf, an element with the
blocks between its name and its references, or a fragment.  The words of a recording are the words
of blocks, laid end to end (`Block.wordsAll`), and `Block.placedAll` lists all records among them
with their offsets.  Every record that is listed reads back at its offset
(`Block.readAt_of_mem_placedAll`), whatever words surround it.
-/

namespace HtmlTape

/-- A complete record with the records that lie inside of it. -/
inductive Block where
  | leaf (leaf : Leaf)
  | element (name : ElementName) (inner : List Block) (refs : List Nat)
  | fragment (refs : List Nat)

namespace Block

def inner : Block → List Block
  | .element _ inner _ => inner
  | .leaf _ | .fragment _ => []

/-- **Induction over a list of blocks**, with the blocks inside of its first one. -/
@[elab_as_elim]
theorem forest_induction {motive : List Block → Prop} (nil : motive [])
    (cons : ∀ b rest, motive b.inner → motive rest → motive (b :: rest)) :
    ∀ blocks, motive blocks
  | [] => nil
  | .leaf l :: rest => cons (.leaf l) rest nil (forest_induction nil cons rest)
  | .element name inner refs :: rest =>
    cons (.element name inner refs) rest (forest_induction nil cons inner)
      (forest_induction nil cons rest)
  | .fragment refs :: rest => cons (.fragment refs) rest nil (forest_induction nil cons rest)

/-! ### Words -/

mutual

/-- The words of a block.  The second word of an element is the number of all its words. -/
def words : Block → List Nat
  | .leaf l => l.words
  | .element name inner refs =>
    [Tag.element.word, (wordsAll inner).length + refs.length + 5, name.code] ++ wordsAll inner ++
      refs ++ [refs.length, Tag.elementEnd.word]
  | .fragment refs => [Tag.fragment.word, refs.length] ++ refs

def wordsAll : List Block → List Nat
  | [] => []
  | b :: rest => b.words ++ wordsAll rest

end

def size (b : Block) : Nat := b.words.length

def sizeAll (blocks : List Block) : Nat := (wordsAll blocks).length

theorem wordsAll_append (as bs : List Block) : wordsAll (as ++ bs) = wordsAll as ++ wordsAll bs := by
  induction as with
  | nil => rfl
  | cons a as ih => rw [List.cons_append, wordsAll, ih, wordsAll, List.append_assoc]

@[simp] theorem sizeAll_nil : sizeAll [] = 0 := rfl

@[simp] theorem sizeAll_cons (b : Block) (rest : List Block) :
    sizeAll (b :: rest) = b.size + sizeAll rest := by
  rw [sizeAll, wordsAll, List.length_append]
  rfl

@[simp] theorem sizeAll_append (as bs : List Block) :
    sizeAll (as ++ bs) = sizeAll as + sizeAll bs := by
  rw [sizeAll, wordsAll_append, List.length_append]
  rfl

theorem size_element (name : ElementName) (inner : List Block) (refs : List Nat) :
    (element name inner refs).size = sizeAll inner + refs.length + 5 := by
  simp only [size, words, sizeAll, List.length_append, List.length_cons, List.length_nil]
  omega

theorem size_fragment (refs : List Nat) : (fragment refs).size = refs.length + 2 := by
  simp only [size, words, List.length_append, List.length_cons, List.length_nil]
  omega

theorem size_pos (b : Block) : 0 < b.size := by
  cases b with
  | leaf l => cases l <;> simp [size, words, Leaf.words]
  | element name inner refs => rw [size_element]; omega
  | fragment refs => rw [size_fragment]; omega

/-! ### Records and their offsets -/

def record : Block → Record
  | .leaf l => .leaf l
  | .element name inner refs => .element name (sizeAll inner + refs.length + 5) refs
  | .fragment refs => .fragment refs

/-- The references of a block, and their offset when the block starts at `offset`. -/
def refsAt (offset : Nat) : Block → Nat × List Nat
  | .leaf _ => (offset, [])
  | .element _ inner refs => (offset + 3 + sizeAll inner, refs)
  | .fragment refs => (offset + 2, refs)

/-- The literal text of a block itself, if it has one. -/
def literal? : Block → Option Literal
  | .leaf (.text l) | .leaf (.raw l) | .leaf (.valued _ l) => some l
  | _ => none

mutual

/-- The records of a block that starts at `offset`, each with its own offset, in the order of the
words. -/
def placed (offset : Nat) : Block → List (Nat × Block)
  | .leaf l => [(offset, .leaf l)]
  | .element name inner refs => (offset, .element name inner refs) :: placedAll (offset + 3) inner
  | .fragment refs => [(offset, .fragment refs)]

/-- The records of blocks that are laid end to end from `offset` on. -/
def placedAll (offset : Nat) : List Block → List (Nat × Block)
  | [] => []
  | b :: rest => b.placed offset ++ placedAll (offset + b.size) rest

end

theorem placedAll_append (as bs : List Block) : ∀ offset : Nat,
    placedAll offset (as ++ bs) = placedAll offset as ++ placedAll (offset + sizeAll as) bs := by
  induction as with
  | nil => intro offset; rfl
  | cons a as ih =>
    intro offset
    rw [List.cons_append, placedAll, ih, placedAll, List.append_assoc, sizeAll_cons, Nat.add_assoc]

def literals (offset : Nat) (blocks : List Block) : List Literal :=
  (placedAll offset blocks).filterMap fun p => p.2.literal?

theorem literals_append (offset : Nat) (as bs : List Block) :
    literals offset (as ++ bs) = literals offset as ++ literals (offset + sizeAll as) bs := by
  rw [literals, placedAll_append, List.filterMap_append]
  rfl

theorem mem_placedAll_cons {offset : Nat} {b : Block} {rest : List Block} {p : Nat × Block} :
    p ∈ placedAll offset (b :: rest) ↔ p = (offset, b) ∨ p ∈ placedAll (offset + 3) b.inner ∨
      p ∈ placedAll (offset + b.size) rest := by
  rw [placedAll, List.mem_append]
  cases b <;> simp [placed, inner, placedAll, or_assoc]

theorem mem_placedAll_singleton {offset : Nat} {b : Block} {p : Nat × Block} :
    p ∈ placedAll offset [b] ↔ p = (offset, b) ∨ p ∈ placedAll (offset + 3) b.inner := by
  rw [mem_placedAll_cons]
  simp [placedAll]

/-! ### Reading records back -/

theorem getElem?_toArray_append_cons (before after : List Nat) (w : Nat) {i : Nat}
    (h : i = before.length) : (before ++ w :: after).toArray[i]? = some w := by
  subst h
  simp

theorem extract_toArray_append (before row after : List Nat) {i j : Nat}
    (hi : i = before.length) (hj : j = before.length + row.length) :
    ((before ++ row ++ after).toArray.extract i j).toList = row := by
  subst hi hj
  simp [List.extract_eq_take_drop]

theorem readAt_element (before after : List Nat) (name : ElementName) (inner : List Block)
    (refs : List Nat) :
    Record.readAt (before ++ (element name inner refs).words ++ after).toArray before.length =
      .ok (element name inner refs).record := by
  have hsize := size_element name inner refs
  have hwords : before ++ (element name inner refs).words ++ after =
      (before ++ [Tag.element.word, sizeAll inner + refs.length + 5, name.code] ++
        wordsAll inner) ++ refs ++ refs.length :: Tag.elementEnd.word :: after := by
    simp [words, sizeAll]
  have hstop : (before ++ [Tag.element.word, sizeAll inner + refs.length + 5, name.code] ++
        wordsAll inner).length = before.length + (3 + sizeAll inner) := by
    simp [sizeAll]
    omega
  have hend : (before ++ (element name inner refs).words ++ after).toArray[
      before.length + (sizeAll inner + refs.length + 5) - 1]? = some Tag.elementEnd.word := by
    rw [hwords, List.append_cons _ refs.length]
    refine getElem?_toArray_append_cons _ _ _ ?_
    simp only [List.length_append, hstop, List.length_cons, List.length_nil]
    omega
  have hnum : (before ++ (element name inner refs).words ++ after).toArray[
      before.length + (sizeAll inner + refs.length + 5) - 2]? = some refs.length := by
    rw [hwords]
    refine getElem?_toArray_append_cons _ _ _ ?_
    rw [List.length_append, hstop]
    omega
  have hrefs : Record.refsOf (before ++ (element name inner refs).words ++ after).toArray
      before.length (sizeAll inner + refs.length + 5) = .ok refs := by
    simp only [Record.refsOf]
    rw [hend, hnum, if_neg (by simp)]
    simp only
    rw [if_pos (by omega), hwords]
    refine congrArg Except.ok (extract_toArray_append _ _ _ ?_ ?_)
    · rw [hstop]; omega
    · rw [hstop]; omega
  have h₀ : (before ++ (element name inner refs).words ++ after).toArray[before.length]? =
      some Tag.element.word := by
    simp [words]
  have h₁ : (before ++ (element name inner refs).words ++ after).toArray[before.length + 1]? =
      some (sizeAll inner + refs.length + 5) := by
    simp [words, sizeAll]
  have h₂ : (before ++ (element name inner refs).words ++ after).toArray[before.length + 2]? =
      some name.code := by
    simp [words]
  rw [Record.readAt, h₀, h₁, h₂]
  simp only [Tag.ofWord?_word]
  rw [hrefs]
  rfl

theorem readAt_fragment (before after : List Nat) (refs : List Nat) :
    Record.readAt (before ++ (fragment refs).words ++ after).toArray before.length =
      .ok (fragment refs).record := by
  have h₀ : (before ++ (fragment refs).words ++ after).toArray[before.length]? =
      some Tag.fragment.word := by
    simp [words]
  have h₁ : (before ++ (fragment refs).words ++ after).toArray[before.length + 1]? =
      some refs.length := by
    simp [words]
  have hrow : Record.rowAt (before ++ (fragment refs).words ++ after).toArray before.length =
      .ok refs := by
    rw [Record.rowAt, h₁]
    simp only
    rw [if_pos (by simp [words]; omega)]
    refine congrArg Except.ok ?_
    have hwords : before ++ (fragment refs).words ++ after =
        (before ++ [Tag.fragment.word, refs.length]) ++ refs ++ after := by
      simp [words]
    rw [hwords]
    refine extract_toArray_append _ _ _ ?_ ?_ <;> simp
  rw [Record.readAt, h₀, h₁]
  simp only [Tag.ofWord?_word]
  rw [hrow]
  rfl

/-- A block reads back as its record, whatever surrounds it. -/
theorem readAt_words (before after : List Nat) (b : Block) :
    Record.readAt (before ++ b.words ++ after).toArray before.length = .ok b.record := by
  cases b with
  | leaf l => exact Record.readAt_leaf before after l
  | element name inner refs => exact readAt_element before after name inner refs
  | fragment refs => exact readAt_fragment before after refs

/-- **Every record of a row of blocks reads back at its offset**, whatever surrounds the row. -/
theorem readAt_of_mem_placedAll (blocks : List Block) : ∀ (before after : List Nat)
    (p : Nat × Block), p ∈ placedAll before.length blocks →
    Record.readAt (before ++ wordsAll blocks ++ after).toArray p.1 = .ok p.2.record := by
  induction blocks using forest_induction with
  | nil => intro before after p h; cases h
  | cons b rest ih₁ ih₂ =>
    intro before after p h
    rcases mem_placedAll_cons.1 h with rfl | h | h
    · rw [wordsAll, ← List.append_assoc, List.append_assoc _ _ after]
      exact readAt_words before _ b
    · cases b with
      | element name inner refs =>
        have := ih₁ (before ++ [Tag.element.word, sizeAll inner + refs.length + 5, name.code])
          (refs ++ [refs.length, Tag.elementEnd.word] ++ wordsAll rest ++ after) p
          (by rw [List.length_append]; exact h)
        simpa [wordsAll, words, sizeAll, Block.inner] using this
      | leaf l => cases h
      | fragment refs => cases h
    · have := ih₂ (before ++ b.words) after p (by rw [List.length_append]; exact h)
      rwa [List.append_assoc before, ← wordsAll] at this

end Block

end HtmlTape
