import HtmlTape.Proofs.Code.Attributed
import HtmlTape.Proofs.Recorder.Books

/-!
# Every record is compiled once

Every record of a finished recording that is no fragment has one owner, and following the references
from the root meets each of them once (`Recording.Formed.perm_offsets`).  One instruction is made
from each element, text and value, and the others are parts of tags; so compiling comes to an end,
and drops nothing and says nothing twice (`Recording.traced_of_madeBy`).
-/

namespace HtmlTape

/-! ### What records are compiled to -/

namespace Block

/-- An instruction is made from the record.  None is made from a fragment, and none from an
attribute without a value. -/
def isCompiled : Block → Bool
  | .element .. => true
  | .leaf (.boolean _) | .fragment _ => false
  | .leaf _ => true

/-- The instruction can be made from the record: they have the same name or the same literal. -/
def Yields : Block → Instruction → Prop
  | .element name _ _, .startTag name' _ => name' = name
  | .leaf .doctype, .doctype => True
  | .leaf (.text l), .text l' | .leaf (.raw l), .raw l' => l' = l
  | .leaf (.valued _ l), .firstValue l' | .leaf (.valued _ l), .nextValue l' => l' = l
  | _, _ => False

def isCompiledAt (records : List (Nat × Block)) (o : Nat) : Bool :=
  (records.lookup o).any isCompiled

theorem isCompiledAt_eq {offset o : Nat} {blocks : List Block} {b : Block}
    (h : (o, b) ∈ placedAll offset blocks) :
    isCompiledAt (placedAll offset blocks) o = b.isCompiled := by
  rw [isCompiledAt, lookup_placedAll h]
  rfl

end Block

/-- The instruction can be made from the record at its offset, or is made from no record. -/
def Sourced.Fits (records : List (Nat × Block)) (s : Sourced) : Prop :=
  match s.source with
  | some o => ∃ b, (o, b) ∈ records ∧ b.Yields s.instruction
  | none => s.instruction.isPunctuation

/-! ### Branches -/

namespace Branch

/-- Where the code of an element comes from: the element, the values in its tag, and what the code
of its children comes from. -/
theorem filterMap_source_elementCode (o : Nat) (name : ElementName) (children : List Branch)
    {inner : List Sourced} (hvoid : name.kind.isVoid → inner = []) :
    (elementCode o name children inner).filterMap Sourced.source =
      o :: ((groups children).flatMap Group.values).map Prod.fst ++
        inner.filterMap Sourced.source := by
  have htag : ((groups children).flatMap Group.code).filterMap Sourced.source =
      ((groups children).flatMap Group.values).map Prod.fst := by
    rw [List.filterMap_flatMap, List.map_flatMap]
    exact List.flatMap_congr fun g _ => g.filterMap_source_code
  rw [elementCode, bodyCode, List.filterMap_cons, List.filterMap_append, htag]
  by_cases hv : name.kind.isVoid
  · rw [if_pos hv, hvoid hv]
    rfl
  · rw [if_neg hv]
    simp

namespace Grown

variable {offset : Nat} {blocks : List Block} {refs : List Nat} {branches : List Branch}

theorem of_attribute {records : List (Nat × Block)} (h : Grown records refs branches)
    {name : AttributeName} {o : Nat} {l : Literal} {branch : Branch}
    (ha : branch.attribute? = some (name, some (o, l))) (hbranch : branch ∈ branches) :
    (o, Block.leaf (.valued name l)) ∈ records ∧ o ∈ refs := by
  induction h with
  | nil => cases hbranch
  | @leaf o' l' refs branches hmem rest ih =>
    rcases List.mem_cons.1 hbranch with rfl | hbranch
    · cases l' <;> cases ha
      exact ⟨hmem, List.mem_cons_self⟩
    · exact (ih hbranch).imp_right (List.mem_cons_of_mem _)
  | element hmem hvoid inside rest _ ih =>
    rcases List.mem_cons.1 hbranch with rfl | hbranch
    · cases ha
    · exact (ih hbranch).imp_right (List.mem_cons_of_mem _)

theorem of_mem_offsets {records : List (Nat × Block)} (h : Grown records refs branches) :
    ∀ o ∈ offsetsAll branches, ∃ b, (o, b) ∈ records ∧ b.isFragment = false := by
  induction h with
  | nil => intro o ho; cases ho
  | leaf hmem rest ih =>
    intro o ho
    rcases List.mem_cons.1 ho with rfl | ho
    · exact ⟨_, hmem, rfl⟩
    · exact ih o ho
  | element hmem hvoid inside rest ih₁ ih₂ =>
    intro o ho
    rcases List.mem_cons.1 ho with rfl | ho
    · exact ⟨_, hmem, rfl⟩
    · exact (List.mem_append.1 ho).elim (ih₁ o) (ih₂ o)

/-- **Branches are reached from the references** by way of owners. -/
theorem reached {records : List (Nat × Block)} (h : Grown records refs branches) :
    ∀ o ∈ offsetsAll branches, ∃ ref ∈ refs,
      Relation.ReflTransGen (Block.Owns records) ref o := by
  induction h with
  | nil => intro o ho; cases ho
  | leaf hmem rest ih =>
    intro o ho
    rcases List.mem_cons.1 ho with rfl | ho
    · exact ⟨_, List.mem_cons_self, .refl⟩
    · obtain ⟨ref, href, hreach⟩ := ih o ho
      exact ⟨ref, List.mem_cons_of_mem _ href, hreach⟩
  | element hmem hvoid inside rest ih₁ ih₂ =>
    intro o ho
    rcases List.mem_cons.1 ho with rfl | ho
    · exact ⟨_, List.mem_cons_self, .refl⟩
    rcases List.mem_append.1 ho with ho | ho
    · obtain ⟨ref, href, hreach⟩ := ih₁ o ho
      exact ⟨_, List.mem_cons_self, .head ⟨_, hmem, href⟩ hreach⟩
    · obtain ⟨ref, href, hreach⟩ := ih₂ o ho
      exact ⟨ref, List.mem_cons_of_mem _ href, hreach⟩

theorem perm_offsets (h : Grown (Block.placedAll offset blocks) refs branches) :
    (offsetsAll branches).Perm (refs ++
      (offsetsAll branches).flatMap (Block.ownedAt (Block.placedAll offset blocks))) := by
  induction h with
  | nil => exact .refl _
  | @leaf o l refs branches hmem rest ih =>
    refine List.perm_iff_count.2 fun o' => ?_
    have hcount := ih.count_eq o'
    rw [offsetsAll, offsets, List.flatMap_append, List.flatMap_singleton, Block.ownedAt_eq hmem]
    simp only [List.count_append, List.count_cons, List.count_nil, Block.owned] at hcount ⊢
    omega
  | @element o name inner owned refs children branches hmem hvoid inside rest ih₁ ih₂ =>
    refine List.perm_iff_count.2 fun o' => ?_
    have hcount₁ := ih₁.count_eq o'
    have hcount₂ := ih₂.count_eq o'
    rw [offsetsAll, offsets, List.flatMap_append, List.flatMap_cons, Block.ownedAt_eq hmem]
    simp only [List.count_append, List.count_cons, Block.owned] at hcount₁ hcount₂ ⊢
    omega

theorem of_mem_groups {records : List (Nat × Block)} (h : Grown records refs branches)
    {g : Group (Nat × Literal)} (hg : g ∈ groups branches) {v : Nat × Literal}
    (hv : v ∈ g.values) :
    (v.1, Block.leaf (.valued g.name v.2)) ∈ records ∧ v.1 ∈ refs := by
  obtain ⟨branch, hbranch, ha⟩ := List.mem_filterMap.1 ((Group.mem_gather hg).2 v hv)
  exact h.of_attribute ha hbranch

/-- **Every instruction fits the record it is made from.** -/
theorem fits {records : List (Nat × Block)} (h : Grown records refs branches) :
    ∀ s ∈ codeAll branches, s.Fits records := by
  induction h with
  | nil => intro s hs; cases hs
  | @leaf o l refs branches hmem rest ih =>
    intro s hs
    rcases List.mem_append.1 hs with hs | hs
    · obtain ⟨i, hi, rfl⟩ := List.mem_map.1 hs
      refine ⟨_, hmem, ?_⟩
      cases l <;> simp only [Leaf.instructions, List.mem_singleton, List.not_mem_nil] at hi
      all_goals
        subst hi
        trivial
    · exact ih s hs
  | @element o name inner owned refs children branches hmem hvoid inside rest ih₁ ih₂ =>
    intro s hs
    rcases List.mem_append.1 hs with hs | hs
    · rcases List.mem_cons.1 hs with rfl | hs
      · exact ⟨_, hmem, rfl⟩
      rcases List.mem_append.1 hs with hs | hs
      · obtain ⟨g, hg, hs⟩ := List.mem_flatMap.1 hs
        rcases (Group.mem_code hs).2 with ⟨hnone, hpunctuation⟩ | ⟨v, hv, hsome, hi⟩
        · rw [Sourced.Fits, hnone]
          exact hpunctuation
        · rw [Sourced.Fits, hsome]
          refine ⟨_, (inside.of_mem_groups hg hv).1, ?_⟩
          rcases hi with hi | hi <;> rw [hi] <;> rfl
      · by_cases hv : name.kind.isVoid
        · rw [if_pos hv] at hs
          obtain rfl := List.mem_singleton.1 hs
          rfl
        · rw [if_neg hv] at hs
          rcases List.mem_append.1 hs with hs | hs
          · rcases List.mem_cons.1 hs with rfl | hs
            · rfl
            · exact ih₁ s hs
          · obtain rfl := List.mem_singleton.1 hs
            rfl
    · exact ih₂ s hs

/-- **Every value stands in the tag of its owner.** -/
theorem attributed {records : List (Nat × Block)} (h : Grown records refs branches) :
    Attributed records (codeAll branches) := by
  induction h with
  | nil => exact .nil
  | @leaf o l refs branches hmem rest ih =>
    refine Attributed.append ?_ ih
    cases l with
    | valued name value => exact .nil
    | boolean name => exact .nil
    | text value => exact .single rfl
    | raw value => exact .single rfl
    | doctype => exact .single rfl
  | @element o name inner owned refs children branches hmem hvoid inside rest ih₁ ih₂ =>
    refine Attributed.append ?_ ih₂
    rw [code, elementCode, bodyCode, ← List.cons_append]
    refine (Attributed.tag fun g hg v hv => ?_).append ?_
    · obtain ⟨hrecord, href⟩ := inside.of_mem_groups hg hv
      exact ⟨hrecord, _, hmem, href⟩
    · by_cases hv : name.kind.isVoid
      · rw [if_pos hv]
        exact .single rfl
      · rw [if_neg hv]
        exact (Attributed.cons rfl ih₁).append (.single rfl)

/-- **Each record is compiled once.**  The code of branches is made from their records, apart from
the attributes among the branches, whose values stand in the tag of their owner. -/
theorem perm_source (h : Grown (Block.placedAll offset blocks) refs branches) :
    ((codeAll branches).filterMap Sourced.source ++
      ((branches.filterMap attribute?).filterMap Prod.snd).map Prod.fst).Perm
        ((offsetsAll branches).filter (Block.isCompiledAt (Block.placedAll offset blocks))) := by
  induction h with
  | nil => exact .refl _
  | @leaf o l refs branches hmem rest ih =>
    have hcompiled := Block.isCompiledAt_eq hmem
    cases l with
    | text value =>
      rw [offsetsAll, offsets, List.singleton_append, List.filter_cons_of_pos hcompiled]
      exact ih.cons o
    | raw value =>
      rw [offsetsAll, offsets, List.singleton_append, List.filter_cons_of_pos hcompiled]
      exact ih.cons o
    | doctype =>
      rw [offsetsAll, offsets, List.singleton_append, List.filter_cons_of_pos hcompiled]
      exact ih.cons o
    | valued name value =>
      rw [offsetsAll, offsets, List.singleton_append, List.filter_cons_of_pos hcompiled]
      exact List.perm_middle.trans (ih.cons o)
    | boolean name =>
      have hskipped : ¬ Block.isCompiledAt (Block.placedAll offset blocks) o = true := by
        rw [hcompiled]
        exact Bool.false_ne_true
      rw [offsetsAll, offsets, List.singleton_append, List.filter_cons_of_neg hskipped]
      exact ih
  | @element o name inner owned refs children branches hmem hvoid inside rest ih₁ ih₂ =>
    have hcompiled := Block.isCompiledAt_eq hmem
    have hvalues := (Group.perm_values (children.filterMap attribute?)).map Prod.fst
    rw [codeAll, code, List.filterMap_append, filterMap_source_elementCode o name children hvoid,
      offsetsAll, offsets, List.filter_append, List.filter_cons_of_pos hcompiled]
    refine List.perm_iff_count.2 fun o' => ?_
    have hcount := hvalues.count_eq o'
    have hcount₁ := ih₁.count_eq o'
    have hcount₂ := ih₂.count_eq o'
    rw [← groups] at hcount
    have hnone : (Branch.element o name children).attribute? = none := rfl
    rw [List.filterMap_cons_none hnone]
    simp only [List.count_append, List.count_cons] at hcount hcount₁ hcount₂ ⊢
    omega

end Grown

end Branch

/-! ### Recordings -/

/-- Every record of the blocks has one owner: an element, or the root with the references `root`. -/
structure Block.Rooted (blocks : List Block) (root : List Nat) : Prop where
  /-- No two records start at one offset. -/
  distinct : ((placedAll 0 blocks).map Prod.fst).Nodup
  /-- The references of the elements and of the root are the offsets of the records that are no
  fragments, each once. -/
  owned : (ownedAll 0 blocks ++ root).Perm (offsets 0 blocks)
  /-- No record owns itself, not even by way of others. -/
  acyclic : ∀ o, ¬ Relation.TransGen (Owns (placedAll 0 blocks)) o o
  /-- All records are reached from the root. -/
  reached : ∀ o ∈ offsets 0 blocks,
    ∃ ref ∈ root, Relation.ReflTransGen (Owns (placedAll 0 blocks)) ref o

/-- The code is made from the records of the blocks, one instruction from each. -/
structure Block.Traced (blocks : List Block) (code : List Sourced) : Prop where
  /-- One instruction is made from each record that is compiled. -/
  once : ∀ p ∈ placedAll 0 blocks, p.2.isCompiled →
    ∃ i, code.filter (·.source == some p.1) = [⟨i, some p.1⟩] ∧ p.2.Yields i
  /-- No instruction is made from anything else. -/
  fits : ∀ s ∈ code, s.Fits (placedAll 0 blocks)
  attributed : Attributed (placedAll 0 blocks) code

namespace Recording

variable {t : Recording} {blocks : List Block} {root : List Nat} {branches : List Branch}

/-- **Following the references meets every record once.** -/
theorem Formed.perm_offsets (h : t.Formed blocks root)
    (howned : (Block.offsets 0 blocks).Perm (Block.ownedAll 0 blocks ++ root))
    (hgrown : Branch.Grown (Block.placedAll 0 blocks) root branches) :
    (Branch.offsetsAll branches).Perm (Block.offsets 0 blocks) := by
  have hbranches := fun o ho =>
    have ⟨_, hb, _⟩ := hgrown.of_mem_offsets o ho
    Block.stopAt_bounds h.refers hb
  have hrecords := fun o ho =>
    have ⟨_, hb, _⟩ := Block.mem_offsets.1 ho
    Block.stopAt_bounds (o := o) h.refers hb
  refine perm_of_owned hgrown.perm_offsets ?_ hbranches hrecords
  rw [Block.flatMap_ownedAt]
  exact howned.trans List.perm_append_comm

theorem Formed.rooted (h : t.Formed blocks root)
    (howned : (Block.offsets 0 blocks).Perm (Block.ownedAll 0 blocks ++ root))
    (hgrown : Branch.Grown (Block.placedAll 0 blocks) root branches) :
    Block.Rooted blocks root where
  distinct := Block.nodup_placedAll blocks 0
  owned := howned.symm
  acyclic := Block.not_transGen_owns h.refers
  reached := fun o ho => hgrown.reached o ((h.perm_offsets howned hgrown).mem_iff.2 ho)

/-- The code of the branches is made from the records that are compiled, each once, if no branch is
an attribute. -/
theorem Formed.perm_source (h : t.Formed blocks root)
    (howned : (Block.offsets 0 blocks).Perm (Block.ownedAll 0 blocks ++ root))
    (hgrown : Branch.Grown (Block.placedAll 0 blocks) root branches)
    (hnodes : branches.filterMap Branch.attribute? = []) :
    ((Branch.codeAll branches).filterMap Sourced.source).Perm
      ((Block.offsets 0 blocks).filter (Block.isCompiledAt (Block.placedAll 0 blocks))) := by
  have hsources := hgrown.perm_source
  rw [hnodes, List.filterMap_nil, List.map_nil, List.append_nil] at hsources
  exact hsources.trans ((h.perm_offsets howned hgrown).filter _)

theorem Formed.traced (h : t.Formed blocks root)
    (howned : (Block.offsets 0 blocks).Perm (Block.ownedAll 0 blocks ++ root))
    (hgrown : Branch.Grown (Block.placedAll 0 blocks) root branches)
    (hnodes : branches.filterMap Branch.attribute? = []) :
    Block.Traced blocks (Branch.codeAll branches) where
  fits := hgrown.fits
  attributed := hgrown.attributed
  once := by
    rintro ⟨o, b⟩ hb hcompiled
    have hfragment : b.isFragment = false := by
      cases b with
      | fragment refs => cases hcompiled
      | leaf l => rfl
      | element name inner refs => rfl
    -- the offset is met once, so it is a source once
    have hcount : ((Branch.codeAll branches).filterMap Sourced.source).count o = 1 := by
      rw [(h.perm_source howned hgrown hnodes).count_eq,
        List.count_filter (by rw [Block.isCompiledAt_eq hb]; exact hcompiled)]
      exact List.count_eq_one_of_mem (Block.nodup_offsets 0 blocks)
        (Block.mem_offsets.2 ⟨b, hb, hfragment⟩)
    rw [List.count_filterMap, List.countP_eq_length_filter] at hcount
    obtain ⟨s, hs⟩ := List.length_eq_one_iff.1 hcount
    obtain ⟨hmem, hsource⟩ := List.mem_filter.1 (hs ▸ List.mem_singleton_self s)
    have hsource : s.source = some o := eq_of_beq hsource
    have hfits := hgrown.fits s hmem
    rw [Sourced.Fits, hsource] at hfits
    obtain ⟨b', hb', hyields⟩ := hfits
    obtain rfl : b' = b := Option.some.inj
      ((Block.lookup_placedAll hb').symm.trans (Block.lookup_placedAll hb))
    refine ⟨s.instruction, ?_, hyields⟩
    rw [hs, ← hsource]

/-- The references of the root lead to branches that are no attributes, and the code of these is that
of the document. -/
theorem Laid.exists_branches {refs : List Ref} {items : List (Item Quote)}
    (h : t.Laid blocks refs items) : ∃ branches : List Branch,
      Branch.Grown (Block.placedAll 0 blocks) (refs.map Ref.record) branches ∧
      branches.filterMap Branch.attribute? = [] ∧
      (Branch.codeAll branches).map Sourced.instruction =
        Tree.instructionsAll (Item.treesAll items) := by
  obtain ⟨branches, hgrown, hattrs, hcode⟩ := h.shows.exists_grown
  rw [h.shows.attributesAll_eq_nil h.nodes, List.map_nil] at hattrs
  exact ⟨branches, hgrown, List.map_eq_nil_iff.1 hattrs, hcode⟩

/-- **Compiling ends, and every record is compiled once.**  Each record that is no fragment has one
owner and is reached from the root.  From each element, text and value one instruction is made, with
the same name or literal, and nothing else is made but the parts of tags; and each value stands in
the start tag of its owner. -/
theorem traced_of_madeBy {calls : List SpelledCall} (h : t.MadeBy calls) :
    ∃ (blocks : List Block) (root : List Nat) (d : Document) (code : List Sourced),
      t.Formed blocks root ∧ Block.Rooted blocks root ∧ t.compile = .ok d ∧
      d.instructions.map Prod.snd = code.map Sourced.instruction ∧
      d.readableSize = d.code.size ∧ Block.Traced blocks code := by
  obtain ⟨draft, blocks, refs, _, _, _, hlaid⟩ := h.laid
  obtain ⟨branches, hgrown, hnodes, hcode⟩ := hlaid.exists_branches
  have hformed := hlaid.formed
  have howned := hlaid.owned h
  refine ⟨blocks, refs.map Ref.record, _, Branch.codeAll branches, hformed,
    hformed.rooted howned hgrown, hlaid.compile, ?_, Document.readableSize_eq rfl,
    hformed.traced howned hgrown hnodes⟩
  rw [Document.instructions_eq rfl, Instruction.map_snd_placedAll, hcode]

theorem card_traced : card.MadeBy cardCalls ∧
    ∃ (blocks : List Block) (root : List Nat) (d : Document) (code : List Sourced),
      card.Formed blocks root ∧ Block.Rooted blocks root ∧ card.compile = .ok d ∧
      d.instructions.map Prod.snd = code.map Sourced.instruction ∧
      d.readableSize = d.code.size ∧ Block.Traced blocks code :=
  ⟨card_madeBy, traced_of_madeBy card_madeBy⟩

end Recording

end HtmlTape
