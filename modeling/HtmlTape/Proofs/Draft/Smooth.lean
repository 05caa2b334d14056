import HtmlTape.Proofs.Draft.Machine
import HtmlTape.Proofs.Recorder.Checks

/-!
# Drafts without fragments

A fragment groups items, and nothing else.  If what stands in a fragment is put in its place
(`Item.smoothAll`), the trees stay the same (`Item.treesAll_smoothAll`), and so do the attributes
that an owner gets.  An open fragment is a level of its own; if its items are given to the level
around it (`Sheet.smoothAll`), beginning and ending a fragment change nothing.
-/

namespace HtmlTape

variable {τ : Type}

/-! ### Items -/

mutual

/-- What an item is without fragments: what stands in a fragment stands in its place. -/
def Item.smooth : Item τ → List (Item τ)
  | .mark m => [.mark m]
  | .element name items => [.element name (Item.smoothAll items)]
  | .fragment items => Item.smoothAll items

def Item.smoothAll : List (Item τ) → List (Item τ)
  | [] => []
  | item :: rest => item.smooth ++ Item.smoothAll rest

end

namespace Item

theorem smoothAll_append (as bs : List (Item τ)) :
    smoothAll (as ++ bs) = smoothAll as ++ smoothAll bs := by
  induction as with
  | nil => rfl
  | cons a as ih => rw [List.cons_append, smoothAll, ih, smoothAll, List.append_assoc]

theorem smoothAll_singleton (item : Item τ) : smoothAll [item] = item.smooth := List.append_nil _

theorem attributesAll_singleton (item : Item τ) : attributesAll [item] = item.attributes :=
  List.append_nil _

theorem treesAll_singleton (item : Item τ) : treesAll [item] = item.trees := List.append_nil _

theorem attributesAll_append (as bs : List (Item τ)) :
    attributesAll (as ++ bs) = attributesAll as ++ attributesAll bs := by
  induction as with
  | nil => rfl
  | cons a as ih => rw [List.cons_append, attributesAll, ih, attributesAll, List.append_assoc]

theorem treesAll_append (as bs : List (Item τ)) :
    treesAll (as ++ bs) = treesAll as ++ treesAll bs := by
  induction as with
  | nil => rfl
  | cons a as ih => rw [List.cons_append, treesAll, ih, treesAll, List.append_assoc]

theorem expandedAll_append (as bs : List (Item τ)) :
    expandedAll (as ++ bs) = expandedAll as ++ expandedAll bs := by
  induction as with
  | nil => rfl
  | cons a as ih => rw [List.cons_append, expandedAll, ih, expandedAll, List.append_assoc]

theorem attributesAll_smoothAll (items : List (Item τ)) :
    attributesAll (smoothAll items) = attributesAll items := by
  induction items using forest_induction with
  | nil => rfl
  | mark m rest ih => rw [smoothAll, smooth, attributesAll_append, ih, attributesAll_singleton]; rfl
  | element name items rest _ ih => rw [smoothAll, attributesAll_append, ih]; rfl
  | fragment items rest ih₁ ih₂ =>
    rw [smoothAll, smooth, attributesAll_append, ih₁, ih₂]
    rfl

/-- **Fragments do not matter to the trees.** -/
theorem treesAll_smoothAll (items : List (Item τ)) :
    treesAll (smoothAll items) = treesAll items := by
  induction items using forest_induction with
  | nil => rfl
  | mark m rest ih => rw [smoothAll, smooth, treesAll_append, ih, treesAll_singleton]; rfl
  | element name items rest ih₁ ih₂ =>
    rw [smoothAll, smooth, treesAll_append, ih₂, treesAll, treesAll, trees, ih₁,
      attributesAll_smoothAll]
    rfl
  | fragment items rest ih₁ ih₂ =>
    rw [smoothAll, smooth, treesAll_append, ih₁, ih₂]
    rfl

theorem map_isAttribute_smoothAll (items : List (Item τ)) :
    (expandedAll (smoothAll items)).map isAttribute = (expandedAll items).map isAttribute := by
  induction items using forest_induction with
  | nil => rfl
  | mark m rest ih => rw [smoothAll, expandedAll_append, List.map_append, ih]; rfl
  | element name items rest _ ih => rw [smoothAll, expandedAll_append, List.map_append, ih]; rfl
  | fragment items rest ih₁ ih₂ =>
    rw [smoothAll, smooth, expandedAll_append, List.map_append, ih₁, ih₂, ← List.map_append]
    rfl

theorem forall_expandedAll_of_smoothAll {as bs : List (Item τ)} (h : smoothAll as = smoothAll bs)
    (p : Bool → Prop) : (∀ item ∈ expandedAll as, p item.isAttribute) ↔
      ∀ item ∈ expandedAll bs, p item.isAttribute := by
  have hmap : (expandedAll as).map isAttribute = (expandedAll bs).map isAttribute := by
    rw [← map_isAttribute_smoothAll, h, map_isAttribute_smoothAll]
  rw [← List.forall_mem_map (f := isAttribute) (P := p), hmap, List.forall_mem_map]

theorem treesAll_of_smoothAll {as bs : List (Item τ)} (h : smoothAll as = smoothAll bs) :
    treesAll as = treesAll bs := by
  rw [← treesAll_smoothAll as, h, treesAll_smoothAll]

theorem smoothAll_smoothAll (items : List (Item τ)) :
    smoothAll (smoothAll items) = smoothAll items := by
  induction items using forest_induction with
  | nil => rfl
  | mark m rest ih => rw [smoothAll, smoothAll_append, ih]; rfl
  | element name items rest ih₁ ih₂ =>
    rw [smoothAll, smooth, smoothAll_append, ih₂, smoothAll_singleton, smooth, ih₁]
  | fragment items rest ih₁ ih₂ => rw [smoothAll, smooth, smoothAll_append, ih₁, ih₂]

end Item

/-! ### Levels -/

/-- What the levels are without fragments, the innermost first: an open fragment has given its items
to the level around it. -/
def Sheet.smoothAll : List (Sheet τ) → List (Sheet τ)
  | [] => []
  | ⟨.fragment, items⟩ :: outer =>
    (smoothAll outer).modifyHead fun parent =>
      { parent with items := parent.items ++ Item.smoothAll items }
  | ⟨scope, items⟩ :: outer => ⟨scope, Item.smoothAll items⟩ :: smoothAll outer

namespace Sheet

theorem smoothAll_element (name : ElementName) (items : List (Item τ)) (outer : List (Sheet τ)) :
    smoothAll (⟨.element name, items⟩ :: outer) =
      ⟨.element name, Item.smoothAll items⟩ :: smoothAll outer :=
  rfl

/-- Items that a level gets are got by the level that has its items. -/
theorem smoothAll_append (sheet : Sheet τ) (items : List (Item τ)) (outer : List (Sheet τ)) :
    smoothAll ({ sheet with items := sheet.items ++ items } :: outer) =
      (smoothAll (sheet :: outer)).modifyHead fun top =>
        { top with items := top.items ++ Item.smoothAll items } := by
  obtain ⟨scope, before⟩ := sheet
  cases scope with
  | root | element name =>
    simp only [smoothAll, Item.smoothAll_append, List.modifyHead_cons]
  | fragment =>
    simp only [smoothAll, Item.smoothAll_append, List.modifyHead_modifyHead]
    congr 1
    funext parent
    simp only [Function.comp_apply, List.append_assoc]

/-- **Beginning a fragment changes nothing.** -/
theorem smoothAll_begin (outer : List (Sheet τ)) : smoothAll (⟨.fragment, []⟩ :: outer) =
    smoothAll outer := by
  rw [smoothAll]
  cases smoothAll outer with
  | nil => rfl
  | cons parent rest => simp only [List.modifyHead_cons, Item.smoothAll, List.append_nil]

/-- **Ending a fragment changes nothing.** -/
theorem smoothAll_end (items : List (Item τ)) (parent : Sheet τ) (outer : List (Sheet τ)) :
    smoothAll (parent.add (.fragment items) :: outer) =
      smoothAll (⟨.fragment, items⟩ :: parent :: outer) := by
  rw [Sheet.add, smoothAll_append, smoothAll, Item.smoothAll_singleton, Item.smooth]

end Sheet

end HtmlTape
