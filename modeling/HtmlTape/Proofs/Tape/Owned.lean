import HtmlTape.Proofs.Tape.Layout
import Mathlib.Data.List.Nodup

/-!
# Records and what they own

The words of a recording tell its blocks: no other blocks have the same words
(`Block.wordsAll_inj`), and no two records start at one offset (`Block.nodup_placedAll`).

An element owns what its references lead to.  A fragment owns nothing: its references stand in the
record for the reader alone, and its owner has got the same ones.  `Block.offsets` are the offsets
of all records that can be owned, and `Block.ownedAll` are the references of all elements.
-/

namespace HtmlTape

namespace Block

/-! ### Words tell the blocks -/

theorem wordsAll_cons_ne_nil (b : Block) (rest : List Block) : wordsAll (b :: rest) ≠ [] := by
  intro h
  rw [wordsAll, List.append_eq_nil_iff] at h
  have hpos := b.size_pos
  rw [size, h.1] at hpos
  exact absurd hpos (Nat.lt_irrefl 0)

theorem size_eq_of_record {b c : Block} (h : b.record = c.record) : b.size = c.size := by
  cases b with
  | leaf l =>
    cases c <;> cases h
    rfl
  | fragment refs =>
    cases c <;> cases h
    rfl
  | element name inner refs =>
    cases c with
    | leaf l => cases h
    | fragment refs' => cases h
    | element name' inner' refs' =>
      rw [size_element, size_element]
      simp only [record, Record.element.injEq] at h
      exact h.2.1

/-- **Blocks are told by their words.** -/
theorem wordsAll_inj (as : List Block) : ∀ {bs : List Block},
    wordsAll as = wordsAll bs → as = bs := by
  induction as using forest_induction with
  | nil =>
    intro bs h
    cases bs with
    | nil => rfl
    | cons c rest => exact absurd h.symm (wordsAll_cons_ne_nil c rest)
  | cons b rest ih₁ ih₂ =>
    intro bs h
    cases bs with
    | nil => exact absurd h (wordsAll_cons_ne_nil b rest)
    | cons c rest' =>
      rw [wordsAll, wordsAll] at h
      -- the record at the start is read from the words alone
      have hrecord : b.record = c.record := by
        have hb := readAt_words [] (wordsAll rest) b
        have hc := readAt_words [] (wordsAll rest') c
        rw [List.nil_append] at hb hc
        rw [h, hc] at hb
        exact (Except.ok.inj hb).symm
      obtain ⟨hwords, hrest⟩ := List.append_inj h (size_eq_of_record hrecord)
      rw [ih₂ hrest, List.cons.injEq]
      refine ⟨?_, rfl⟩
      cases b with
      | leaf l =>
        cases c <;> cases hrecord
        rfl
      | fragment refs =>
        cases c <;> cases hrecord
        rfl
      | element name inner refs =>
        cases c with
        | leaf l => cases hrecord
        | fragment refs' => cases hrecord
        | element name' inner' refs' =>
          simp only [record, Record.element.injEq] at hrecord
          obtain ⟨rfl, _, rfl⟩ := hrecord
          simp only [words, List.append_assoc, List.cons_append, List.nil_append,
            List.cons.injEq, List.append_cancel_right_eq] at hwords
          have hinner : inner = inner' := ih₁ hwords.2.2.2
          rw [hinner]

/-! ### Offsets -/

theorem placedAll_cons (offset : Nat) (b : Block) (rest : List Block) :
    placedAll offset (b :: rest) =
      (offset, b) :: placedAll (offset + 3) b.inner ++ placedAll (offset + b.size) rest := by
  rw [placedAll]
  cases b with
  | element name inner refs => rw [placed]; rfl
  | leaf l => rfl
  | fragment refs => rfl

theorem bounds_of_mem_placedAll (blocks : List Block) : ∀ {offset : Nat} {p : Nat × Block},
    p ∈ placedAll offset blocks → offset ≤ p.1 ∧ p.1 + p.2.size ≤ offset + sizeAll blocks := by
  induction blocks using forest_induction with
  | nil => intro offset p hp; cases hp
  | cons b rest ih₁ ih₂ =>
    intro offset p hp
    rw [sizeAll_cons]
    rcases mem_placedAll_cons.1 hp with rfl | hp | hp
    · exact ⟨Nat.le_refl _, Nat.add_le_add_left (Nat.le_add_right _ _) _⟩
    · obtain ⟨hlow, hhigh⟩ := ih₁ hp
      cases b with
      | element name inner refs =>
        rw [size_element]
        simp only [Block.inner] at hhigh
        omega
      | leaf l => cases hp
      | fragment refs => cases hp
    · obtain ⟨hlow, hhigh⟩ := ih₂ hp
      omega

/-- **No two records start at one offset.** -/
theorem nodup_placedAll (blocks : List Block) : ∀ offset : Nat,
    ((placedAll offset blocks).map Prod.fst).Nodup := by
  induction blocks using forest_induction with
  | nil => exact fun _ => List.nodup_nil
  | cons b rest ih₁ ih₂ =>
    intro offset
    have hpos := b.size_pos
    -- what lies inside of the first block starts after it and ends within it
    have hinner : ∀ o ∈ (placedAll (offset + 3) b.inner).map Prod.fst,
        offset < o ∧ o < offset + b.size := by
      intro o ho
      obtain ⟨p, hp, rfl⟩ := List.mem_map.1 ho
      obtain ⟨hlow, hhigh⟩ := bounds_of_mem_placedAll _ hp
      have hsize := p.2.size_pos
      cases b with
      | element name inner refs =>
        rw [size_element]
        simp only [Block.inner] at hhigh
        omega
      | leaf l => cases hp
      | fragment refs => cases hp
    have hrest : ∀ o ∈ (placedAll (offset + b.size) rest).map Prod.fst, offset + b.size ≤ o := by
      intro o ho
      obtain ⟨p, hp, rfl⟩ := List.mem_map.1 ho
      exact (bounds_of_mem_placedAll _ hp).1
    rw [placedAll_cons, List.cons_append, List.map_cons, List.map_append, List.nodup_cons]
    refine ⟨fun ho => ?_, List.nodup_append.2 ⟨ih₁ _, ih₂ _, ?_⟩⟩
    · rcases List.mem_append.1 ho with ho | ho
      · exact absurd (hinner _ ho).1 (Nat.lt_irrefl _)
      · have hle := hrest _ ho
        omega
    · intro o ho o' ho' heq
      have hlt := (hinner o ho).2
      have hle := hrest o' ho'
      omega

/-! ### Owners -/

/-- The references to what a record owns. -/
def owned : Block → List Nat
  | .element _ _ refs => refs
  | .leaf _ | .fragment _ => []

/-- The references of all elements among the blocks, and inside of them. -/
def ownedAll (offset : Nat) (blocks : List Block) : List Nat :=
  (placedAll offset blocks).flatMap fun p => p.2.owned

/-- The offsets of all records that can be owned. -/
def offsets (offset : Nat) (blocks : List Block) : List Nat :=
  ((placedAll offset blocks).filter fun p => !p.2.isFragment).map Prod.fst

theorem ownedAll_append (offset : Nat) (as bs : List Block) :
    ownedAll offset (as ++ bs) = ownedAll offset as ++ ownedAll (offset + sizeAll as) bs := by
  rw [ownedAll, placedAll_append, List.flatMap_append]
  rfl

theorem offsets_append (offset : Nat) (as bs : List Block) :
    offsets offset (as ++ bs) = offsets offset as ++ offsets (offset + sizeAll as) bs := by
  rw [offsets, placedAll_append, List.filter_append, List.map_append]
  rfl

@[simp] theorem ownedAll_fragment (offset : Nat) (refs : List Nat) :
    ownedAll offset [.fragment refs] = [] := rfl

@[simp] theorem offsets_fragment (offset : Nat) (refs : List Nat) :
    offsets offset [.fragment refs] = [] := rfl

@[simp] theorem ownedAll_element (offset : Nat) (name : ElementName) (inner : List Block)
    (refs : List Nat) :
    ownedAll offset [.element name inner refs] = refs ++ ownedAll (offset + 3) inner := by
  rw [ownedAll, placedAll_cons, placedAll, List.append_nil, List.flatMap_cons]
  rfl

@[simp] theorem offsets_element (offset : Nat) (name : ElementName) (inner : List Block)
    (refs : List Nat) :
    offsets offset [.element name inner refs] = [offset] ++ offsets (offset + 3) inner := by
  rw [offsets, placedAll_cons, placedAll, List.append_nil]
  rfl

theorem mem_offsets {offset o : Nat} {blocks : List Block} :
    o ∈ offsets offset blocks ↔ ∃ b, (o, b) ∈ placedAll offset blocks ∧ b.isFragment = false := by
  simp [offsets]

theorem nodup_offsets (offset : Nat) (blocks : List Block) : (offsets offset blocks).Nodup :=
  (nodup_placedAll blocks offset).sublist (List.filter_sublist.map _)

end Block

end HtmlTape
