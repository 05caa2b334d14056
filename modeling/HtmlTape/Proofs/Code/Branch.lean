import HtmlTape.Proofs.Code.Compiled
import HtmlTape.Proofs.Tape.Rooted

/-!
# Code and the records it is made from

Following the references of a recording gives branches: leaves, and elements with what their
references lead to, each with its offset (`Branch.Grown`).  `Branch.codeAll` is the code of
branches, where each instruction has the offset of the record that it is made from, if it is made
from one.  Without the offsets this is the bytecode of the document (`Shows.exists_grown`).
-/

namespace HtmlTape

/-- An instruction with the offset of the record that it is made from; parts of a tag are made from
no record of their own. -/
structure Sourced where
  instruction : Instruction
  source : Option Nat

/-- What a reference leads to, with its offset. -/
inductive Branch where
  | leaf (offset : Nat) (leaf : Leaf)
  /-- An element, with what its own references lead to. -/
  | element (offset : Nat) (name : ElementName) (children : List Branch)

/-! ### Code -/

/-- The code of an attribute, whose values have the offsets of their records. -/
def Group.code (g : Group (Nat × Literal)) : List Sourced :=
  ⟨.attributeName g.name, none⟩ ::
    match g.values with
    | [] => []
    | value :: values => ⟨.firstValue value.2, some value.1⟩ ::
        values.map (fun v => ⟨.nextValue v.2, some v.1⟩) ++ [⟨.valueEnd, none⟩]

namespace Branch

def attribute? : Branch → Option (AttributeName × Option (Nat × Literal))
  | leaf o (.valued name value) => some (name, some (o, value))
  | leaf _ (.boolean name) => some (name, none)
  | leaf .. | element .. => none

def groups (branches : List Branch) : List (Group (Nat × Literal)) :=
  Group.gather (branches.filterMap attribute?)

/-- The code of an element behind its first instruction, when its children have the code `inner`. -/
def bodyCode (name : ElementName) (children : List Branch) (inner : List Sourced) :
    List Sourced :=
  (groups children).flatMap Group.code ++
    if name.kind.isVoid then [⟨.voidEnd, none⟩]
    else ⟨.startTagEnd (!inner.isEmpty), none⟩ :: inner ++ [⟨.endTag name, none⟩]

/-- The code of an element, when its children have the code `inner`. -/
def elementCode (offset : Nat) (name : ElementName) (children : List Branch)
    (inner : List Sourced) : List Sourced :=
  ⟨.startTag name (3 + Instruction.totalWidth
    ((bodyCode name children inner).map Sourced.instruction)), some offset⟩ ::
      bodyCode name children inner

mutual

/-- The code of a branch; that of an attribute stands in the tag of its element. -/
def code : Branch → List Sourced
  | leaf o l => l.instructions.map fun i => ⟨i, some o⟩
  | element o name children => elementCode o name children (codeAll children)

def codeAll : List Branch → List Sourced
  | [] => []
  | branch :: rest => branch.code ++ codeAll rest

end

mutual

/-- The offsets of a branch and of all branches inside of it. -/
def offsets : Branch → List Nat
  | leaf o _ => [o]
  | element o _ children => o :: offsetsAll children

def offsetsAll : List Branch → List Nat
  | [] => []
  | branch :: rest => branch.offsets ++ offsetsAll rest

end

theorem codeAll_append (as bs : List Branch) : codeAll (as ++ bs) = codeAll as ++ codeAll bs := by
  induction as with
  | nil => rfl
  | cons a as ih => rw [List.cons_append, codeAll, ih, codeAll, List.append_assoc]

/-! ### Branches of a recording -/

/-- The branches are what the references lead to among the records.  Void elements have attributes
only. -/
inductive Grown (records : List (Nat × Block)) : List Nat → List Branch → Prop
  | nil : Grown records [] []
  | leaf {o : Nat} {l : Leaf} {refs : List Nat} {branches : List Branch}
      (hmem : (o, Block.leaf l) ∈ records) (rest : Grown records refs branches) :
      Grown records (o :: refs) (.leaf o l :: branches)
  | element {o : Nat} {name : ElementName} {blocks : List Block} {owned refs : List Nat}
      {children branches : List Branch}
      (hmem : (o, Block.element name blocks owned) ∈ records)
      (hvoid : name.kind.isVoid → codeAll children = [])
      (inside : Grown records owned children) (rest : Grown records refs branches) :
      Grown records (o :: refs) (.element o name children :: branches)

theorem Grown.append {records : List (Nat × Block)} {refs refs' : List Nat}
    {as bs : List Branch} (h : Grown records refs as) (h' : Grown records refs' bs) :
    Grown records (refs ++ refs') (as ++ bs) := by
  induction h with
  | nil => exact h'
  | leaf hmem _ ih => exact .leaf hmem ih
  | element hmem hvoid inside _ _ ih => exact .element hmem hvoid inside ih

end Branch

/-! ### Code without the offsets -/

theorem Group.map_instruction_code (g : Group (Nat × Literal)) :
    g.code.map Sourced.instruction =
      (AttributeGroup.mk g.name (g.values.map Prod.snd)).instructions := by
  rw [Group.code, AttributeGroup.instructions]
  cases g.values with
  | nil => rfl
  | cons value values => simp [Function.comp_def]

/-- The attributes of the element are gathered by name, whether or not their values have the offsets
of their records. -/
theorem Branch.map_instruction_groups {branches : List Branch}
    {attributes : List (AttributeName × Option Quote)}
    (h : (branches.filterMap attribute?).map (fun a => (a.1, a.2.map Prod.snd)) =
      attributes.map fun a => (a.1, a.2.map Quote.literal)) :
    ((groups branches).flatMap Group.code).map Sourced.instruction =
      ((Group.gather attributes).map Group.attribute).flatMap AttributeGroup.instructions := by
  have hgather : (groups branches).map (Group.map Prod.snd) =
      (Group.gather attributes).map (Group.map Quote.literal) := by
    rw [groups, ← Group.gather_map, h, Group.gather_map]
  have hsame := congrArg (List.flatMap fun g : Group Literal =>
    (AttributeGroup.mk g.name g.values).instructions) hgather
  rw [List.flatMap_map, List.flatMap_map] at hsame
  rw [List.map_flatMap, List.flatMap_congr fun g _ => g.map_instruction_code, List.flatMap_map]
  exact hsame

theorem Tree.isEmpty_instructionsAll (trees : List (Tree Quote)) :
    (Tree.instructionsAll trees).isEmpty = trees.isEmpty := by
  cases trees with
  | nil => rfl
  | cons tree rest =>
    have hpos := tree.totalWidth_pos
    rw [Tree.instructionsAll]
    cases h : tree.instructions with
    | nil =>
      rw [h] at hpos
      exact absurd hpos (Nat.lt_irrefl 0)
    | cons i is => rfl

/-- The code of an element without the offsets is the bytecode of its tree. -/
theorem Branch.map_instruction_elementCode {o : Nat} {name : ElementName}
    {children : List Branch} {items : List (Item Quote)}
    (hattrs : (children.filterMap attribute?).map (fun a => (a.1, a.2.map Prod.snd)) =
      (Item.attributesAll items).map fun a => (a.1, a.2.map Quote.literal))
    (hcode : (codeAll children).map Sourced.instruction =
      Tree.instructionsAll (Item.treesAll items)) :
    (elementCode o name children (codeAll children)).map Sourced.instruction =
      Tree.instructions (.element name (Group.gather (Item.attributesAll items))
        (Item.treesAll items)) := by
  have hempty : (codeAll children).isEmpty = (Item.treesAll items).isEmpty := by
    rw [← Tree.isEmpty_instructionsAll, ← hcode]
    exact (List.isEmpty_map ..).symm
  have hbody : (bodyCode name children (codeAll children)).map Sourced.instruction =
      ((Group.gather (Item.attributesAll items)).map Group.attribute).flatMap
        AttributeGroup.instructions ++ (if name.kind.isVoid then [.voidEnd]
          else .startTagEnd (!(Item.treesAll items).isEmpty) ::
            Tree.instructionsAll (Item.treesAll items) ++ [.endTag name]) := by
    rw [bodyCode, List.map_append, map_instruction_groups hattrs, hempty]
    by_cases hv : name.kind.isVoid
    · rw [if_pos hv, if_pos hv]
      rfl
    · rw [if_neg hv, if_neg hv, List.map_append, List.map_cons, hcode]
      rfl
  rw [elementCode, List.map_cons, hbody, Tree.instructions, elementInstructions.eq_def]
  by_cases hv : name.kind.isVoid
  · rw [if_pos hv, if_pos hv]
  · rw [if_neg hv, if_neg hv]

theorem Shows.attributesAll_eq_nil {k : Stock} {limit : Nat} {refs : List Ref}
    {items : List (Item Quote)} (h : Shows k limit refs items)
    (hnodes : ∀ ref ∈ refs, ref.isAttribute = false) : Item.attributesAll items = [] := by
  induction h with
  | nil => rfl
  | @mark _ o m refs items hmem hle hin rest ih =>
    obtain ⟨hm, hrest⟩ := List.forall_mem_cons.1 hnodes
    have hnone : m.attribute? = none := by
      simpa [Mark.isAttribute] using hm
    rw [Item.attributesAll, Item.attributes, hnone, ih hrest]
    rfl
  | element hmem hle hvoid inside rest _ ih =>
    exact ih (List.forall_mem_cons.1 hnodes).2
  | fragment inside rest ih₁ ih₂ =>
    obtain ⟨hinner, hrest⟩ := List.forall_mem_append.1 hnodes
    rw [Item.attributesAll, Item.attributes, ih₁ hinner, ih₂ hrest]
    rfl

/-- **References that show items lead to branches whose code is the bytecode of the items.** -/
theorem Shows.exists_grown {k : Stock} {limit : Nat} {refs : List Ref} {items : List (Item Quote)}
    (h : Shows k limit refs items) : ∃ branches : List Branch,
      Branch.Grown k.records (refs.map Ref.record) branches ∧
      (branches.filterMap Branch.attribute?).map (fun a => (a.1, a.2.map Prod.snd)) =
        (Item.attributesAll items).map (fun a => (a.1, a.2.map Quote.literal)) ∧
      (Branch.codeAll branches).map Sourced.instruction =
        Tree.instructionsAll (Item.treesAll items) := by
  induction h with
  | nil => exact ⟨[], .nil, rfl, rfl⟩
  | @mark _ o m refs items hmem hle hin rest ih =>
    obtain ⟨branches, hgrown, hattrs, hcode⟩ := ih
    refine ⟨.leaf o m.quoted :: branches, .leaf hmem hgrown, ?_, ?_⟩
    · rw [Item.attributesAll, List.map_append, ← hattrs]
      cases m <;> rfl
    · rw [Item.treesAll, Tree.instructionsAll_append, ← hcode]
      cases m <;> rfl
  | @element _ o name blocks inner refs children items hmem hle hvoid inside rest ih₁ ih₂ =>
    obtain ⟨inner', hinner, hattrs, hcode⟩ := ih₁
    obtain ⟨branches, hgrown, hattrs', hcode'⟩ := ih₂
    refine ⟨.element o name inner' :: branches, .element hmem (fun hv => ?_) hinner hgrown,
      hattrs', ?_⟩
    · rw [inside.treesAll_eq_nil_iff.2 (hvoid hv)] at hcode
      exact List.map_eq_nil_iff.1 hcode
    · rw [Item.treesAll, Item.trees, Tree.instructionsAll_append, ← hcode',
        Tree.instructionsAll, Tree.instructionsAll, List.append_nil,
        ← Branch.map_instruction_elementCode hattrs hcode, ← List.map_append]
      rfl
  | @fragment _ inner refs children items inside rest ih₁ ih₂ =>
    obtain ⟨inner', hinner, hattrs, hcode⟩ := ih₁
    obtain ⟨branches, hgrown, hattrs', hcode'⟩ := ih₂
    refine ⟨inner' ++ branches, ?_, ?_, ?_⟩
    · rw [List.map_append]
      exact hinner.append hgrown
    · rw [List.filterMap_append, List.map_append, hattrs, hattrs', ← List.map_append]
      rfl
    · rw [Branch.codeAll_append, List.map_append, hcode, hcode', ← Tree.instructionsAll_append]
      rfl

end HtmlTape
