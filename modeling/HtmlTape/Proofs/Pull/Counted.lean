import HtmlTape.Proofs.Code.Grammar
import HtmlTape.Proofs.Code.Traced
import HtmlTape.Proofs.Pull.Walked
import HtmlTape.Pull.Query

/-!
# Counting elements

A walk that counts elements counts the start tags of the bytecode (`Document.Spells.countElements`).
A start tag is made from each element that was recorded, and from no other record; so the count is
that of the elements of the recording (`Recording.Formed.countP_isStartTag`).
-/

namespace HtmlTape

/-! ### Start tags -/

def Instruction.isStartTag : Instruction → Bool
  | startTag .. => true
  | _ => false

theorem AttributeGroup.countP_isStartTag (groups : List AttributeGroup) :
    (groups.flatMap AttributeGroup.instructions).countP Instruction.isStartTag = 0 := by
  refine List.countP_eq_zero.2 fun i hi htag => ?_
  cases i with
  | startTag name span => exact startTag_notMem groups name span hi
  | _ => cases htag

/-- A walk that counts elements goes into each of them. -/
def Tree.countReading : Reading Nat where
  enter _ tree count :=
    match tree with
    | .element .. => (.descend, count + 1)
    | .doctype | .text _ | .raw _ => (.descend, count)
  leave _ count := count

/-- **Counting the elements of trees counts start tags.** -/
theorem Tree.countReading_forest {names : Names} {pool : String} (forest : List (Tree Quote)) :
    ∀ depth count : Nat, Tree.SoundAll names pool forest →
      countReading.forest depth forest count =
        (true, count + (Tree.instructionsAll forest).countP Instruction.isStartTag) := by
  induction forest using Tree.forest_induction with
  | nil => intro depth count _; rfl
  | doctype rest ih | text q rest ih | raw q rest ih =>
    intro depth count h
    exact ih depth count h.2
  | element name groups children rest ih₁ ih₂ =>
    intro depth count h
    obtain ⟨⟨_, _, _, hvoid, hchildren⟩, hrest⟩ := h
    have htag : (Tree.element name groups children).instructions.countP Instruction.isStartTag =
        1 + (Tree.instructionsAll children).countP Instruction.isStartTag := by
      rw [Tree.instructions, elementInstructions.eq_def, List.countP_cons, List.countP_append,
        AttributeGroup.countP_isStartTag, Nat.zero_add, Nat.add_comm]
      refine congrArg (1 + ·) ?_
      by_cases hv : name.kind.isVoid
      · rw [if_pos hv, hvoid hv]
        rfl
      · rw [if_neg hv]
        simp [Instruction.isStartTag]
    have hinside := ih₁ (depth + 1) (count + 1) hchildren
    have htree : countReading.tree depth (.element name groups children) count =
        (true, count + 1 + (Tree.instructionsAll children).countP Instruction.isStartTag) := by
      rw [Reading.tree]
      simp only [countReading] at hinside ⊢
      rw [hinside]
    rw [Reading.forest, htree, Tree.instructionsAll, List.countP_append, htag]
    refine (ih₂ depth _ hrest).trans (congrArg (Prod.mk true) ?_)
    omega

namespace Document

variable {d : Document}

/-- Counting follows the reading that counts. -/
theorem countVisitor_follows : Visitor.Follows
    { enter := fun c _ node s => (visitCount c node s).map fun (verdict, s) => (verdict, c, s)
      leave := fun _ s => .ok s } d Tree.countReading where
  enter := by
    intro c nodes below frame tree depth count h _ _
    cases tree with
    | doctype | text q | raw q | element name groups children => exact ⟨c, _, rfl, h, id⟩
  leave := fun _ _ => rfl

/-- **A walk counts the start tags of a document.** -/
theorem Spells.countElements {forest : List (Tree Quote)} (h : d.Spells forest) :
    d.countElements = .ok ((Tree.instructionsAll forest).countP Instruction.isStartTag) := by
  obtain ⟨c, hwalk⟩ := countVisitor_follows.walkWith h 0
  rw [Tree.countReading_forest forest 0 0 h.sound, Nat.zero_add] at hwalk
  rw [Document.countElements, walkAll, walk, hwalk]
  rfl

end Document

/-! ### Elements of a recording -/

namespace Block

def isElementAt (records : List (Nat × Block)) (o : Nat) : Bool :=
  (records.lookup o).any isElement

theorem isElementAt_eq {offset o : Nat} {blocks : List Block} {b : Block}
    (h : (o, b) ∈ placedAll offset blocks) :
    isElementAt (placedAll offset blocks) o = b.isElement := by
  rw [isElementAt, lookup_placedAll h]
  rfl

/-- A start tag can be made from an element, and from no other record. -/
theorem Yields.isStartTag_eq {b : Block} {i : Instruction} (h : b.Yields i) :
    i.isStartTag = b.isElement := by
  cases b with
  | element name inner refs => cases i <;> first | rfl | cases h
  | fragment refs => cases i <;> cases h
  | leaf l => cases l <;> cases i <;> first | rfl | cases h

end Block

theorem Sourced.Fits.isStartTag_eq {offset : Nat} {blocks : List Block} {s : Sourced}
    (h : s.Fits (Block.placedAll offset blocks)) : s.instruction.isStartTag =
      s.source.any (Block.isElementAt (Block.placedAll offset blocks)) := by
  rw [Fits] at h
  cases hs : s.source with
  | none =>
    rw [hs] at h
    simp only at h
    cases hi : s.instruction <;> rw [hi] at h <;> first | rfl | cases h
  | some o =>
    rw [hs] at h
    obtain ⟨b, hb, hyields⟩ := h
    rw [hyields.isStartTag_eq]
    exact (Block.isElementAt_eq hb).symm

/-- **As many start tags are made as elements were recorded.** -/
theorem Recording.Formed.countP_isStartTag {t : Recording} {blocks : List Block} {root : List Nat}
    {branches : List Branch} (h : t.Formed blocks root)
    (howned : (Block.offsets 0 blocks).Perm (Block.ownedAll 0 blocks ++ root))
    (hgrown : Branch.Grown (Block.placedAll 0 blocks) root branches)
    (hnodes : branches.filterMap Branch.attribute? = []) :
    ((Branch.codeAll branches).map Sourced.instruction).countP Instruction.isStartTag =
      (Block.placedAll 0 blocks).countP fun p => p.2.isElement := by
  -- a start tag is a source that is an element
  have hsources : ((Branch.codeAll branches).map Sourced.instruction).countP
      Instruction.isStartTag = ((Branch.codeAll branches).filterMap Sourced.source).countP
        (Block.isElementAt (Block.placedAll 0 blocks)) := by
    rw [List.countP_map, List.countP_filterMap]
    refine List.countP_congr fun s hs => ?_
    rw [Function.comp_apply, (hgrown.fits s hs).isStartTag_eq]
    cases s.source <;> rfl
  rw [hsources, (h.perm_source howned hgrown hnodes).countP_eq, List.countP_filter, Block.offsets,
    List.countP_map, List.countP_filter]
  refine List.countP_congr fun p hp => ?_
  have helement := Block.isElementAt_eq hp
  have hcompiled := Block.isCompiledAt_eq hp
  simp only [Function.comp_apply, helement, hcompiled]
  cases p.2 <;> simp [Block.isElement, Block.isCompiled, Block.isFragment]

end HtmlTape
