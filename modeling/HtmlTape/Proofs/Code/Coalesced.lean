import HtmlTape.Proofs.Code.Read
import HtmlTape.Proofs.Code.Traced
import Mathlib.Data.List.Induction
import Mathlib.Data.List.Infix

/-!
# Attributes that share a name

The attributes of an element may come in any order, with a value or without, and a name may come up
again.  `Coalesces` says to which groups they belong: one for each name, in the order in which the
names first come up, with the values of the name in order.  No other groups do
(`Coalesces.unique`), and the scan of the compiler finds them (`coalesces_gather`).

Every element of a finished recording has these groups in its start tag, written as
`AttributeGroup.Written` says, and a reader of the document finds them there
(`Recording.coalesced_of_madeBy`).
-/

namespace HtmlTape

/-! ### Groups of attributes -/

section Groups

variable {attributes : List (AttributeName × Option Literal)} {groups groups' : List AttributeGroup}

/-- The groups are those of the attributes. -/
structure Coalesces (attributes : List (AttributeName × Option Literal))
    (groups : List AttributeGroup) : Prop where
  /-- No name has two groups. -/
  distinct : (groups.map AttributeGroup.name).Nodup
  /-- The names are those of the attributes, with a value or without. -/
  named : ∀ name, name ∈ groups.map AttributeGroup.name ↔ name ∈ attributes.map Prod.fst
  /-- A name comes before another if its first attribute does. -/
  ordered : (groups.map AttributeGroup.name).Pairwise fun name name' =>
    (attributes.map Prod.fst).idxOf name < (attributes.map Prod.fst).idxOf name'
  /-- A group has all values of its name, in order. -/
  values : ∀ g ∈ groups, g.values = (attributes.filter (·.1 = g.name)).filterMap Prod.snd
  /-- A group has no values only if no attribute of its name has one. -/
  valueless : ∀ g ∈ groups, g.values = [] ↔ ∀ a ∈ attributes, a.1 = g.name → a.2 = none

/-- **No other groups are those of the attributes.** -/
theorem Coalesces.unique (h : Coalesces attributes groups) (h' : Coalesces attributes groups') :
    groups = groups' := by
  have hsame : ∀ {gs : List AttributeGroup}, Coalesces attributes gs →
      gs = (gs.map AttributeGroup.name).map fun name =>
        ⟨name, (attributes.filter (·.1 = name)).filterMap Prod.snd⟩ := by
    intro gs hgs
    rw [List.map_map]
    refine (List.map_id gs).symm.trans (List.map_congr_left fun g hg => ?_)
    rw [Function.comp_apply, ← hgs.values g hg]
    rfl
  have hperm : (groups.map AttributeGroup.name).Perm (groups'.map AttributeGroup.name) :=
    (List.perm_ext_iff_of_nodup h.distinct h'.distinct).2 fun name =>
      (h.named name).trans (h'.named name).symm
  have hnames : groups.map AttributeGroup.name = groups'.map AttributeGroup.name := by
    refine hperm.eq_of_pairwise (fun a b _ _ hab hba => ?_) h.ordered h'.ordered
    exact absurd hab (Nat.lt_asymm hba)
  rw [hsame h, hnames, ← hsame h']

/-- A name stands before another if it comes up before it. -/
theorem pairwise_idxOf_eraseDups {α : Type} [DecidableEq α] (as : List α) :
    as.eraseDups.Pairwise fun a b => as.idxOf a < as.idxOf b := by
  induction as using List.reverseRecOn with
  | nil => exact .nil
  | append_singleton as a ih =>
    -- what came up before keeps its place
    have hmono : as.eraseDups.Pairwise fun b c => (as ++ [a]).idxOf b < (as ++ [a]).idxOf c := by
      refine ih.imp_of_mem fun hb hc hlt => ?_
      rwa [List.idxOf_append_of_mem (List.mem_eraseDups.1 hb),
        List.idxOf_append_of_mem (List.mem_eraseDups.1 hc)]
    rw [eraseDups_concat]
    by_cases ha : a ∈ as
    · rwa [if_pos ha]
    · rw [if_neg ha]
      refine List.pairwise_append.2 ⟨hmono, List.pairwise_singleton .., fun b hb c hc => ?_⟩
      have hb : b ∈ as := List.mem_eraseDups.1 hb
      obtain rfl := List.mem_singleton.1 hc
      rw [List.idxOf_append_of_mem hb, List.idxOf_append_of_notMem ha]
      exact Nat.lt_of_lt_of_le (List.idxOf_lt_length_of_mem hb) (Nat.le_add_right _ _)

theorem valuesOf_eq (name : AttributeName) (attributes : List (AttributeName × Option Literal)) :
    valuesOf name attributes = (attributes.filter (·.1 = name)).filterMap Prod.snd := by
  simp [valuesOf, List.filterMap_filter]

theorem valuesOf_eq_nil_iff (name : AttributeName)
    (attributes : List (AttributeName × Option Literal)) :
    valuesOf name attributes = [] ↔ ∀ a ∈ attributes, a.1 = name → a.2 = none := by
  simp [valuesOf, List.filterMap_eq_nil_iff]

/-- **The scan of the compiler finds the groups.** -/
theorem coalesces_gather (attributes : List (AttributeName × Option Literal)) :
    Coalesces attributes (AttributeGroup.gather attributes) := by
  have hnames : (AttributeGroup.gather attributes).map AttributeGroup.name =
      (attributes.map Prod.fst).eraseDups := by
    rw [AttributeGroup.gather_eq, Group.gather, List.map_map, List.map_map]
    exact List.map_id _
  have hgroup : ∀ g ∈ AttributeGroup.gather attributes, g.values = valuesOf g.name attributes := by
    intro g hg
    rw [AttributeGroup.gather_eq, Group.gather, List.map_map] at hg
    obtain ⟨name, _, rfl⟩ := List.mem_map.1 hg
    rfl
  refine ⟨?_, fun name => ?_, ?_, fun g hg => ?_, fun g hg => ?_⟩
  · rw [hnames]
    exact nodup_eraseDups _
  · rw [hnames, List.mem_eraseDups]
  · rw [hnames]
    exact pairwise_idxOf_eraseDups _
  · rw [hgroup g hg, valuesOf_eq]
  · rw [hgroup g hg, valuesOf_eq_nil_iff]

/-- A name that comes up again joins its group, and one without a value keeps its place. -/
example (a b c : Literal) :
    AttributeGroup.gather [(⟨0⟩, none), (⟨1⟩, some a), (⟨0⟩, some b), (⟨1⟩, some c)] =
      [⟨⟨0⟩, [b]⟩, ⟨⟨1⟩, [a, c]⟩] := rfl

end Groups

/-! ### Groups in a start tag -/

/-- How a group is written: the name, and behind it the values, if there are any, with an end. -/
inductive AttributeGroup.Written : AttributeGroup → List Instruction → Prop
  | bare (name : AttributeName) : Written ⟨name, []⟩ [.attributeName name]
  | valued (name : AttributeName) (value : Literal) (values : List Literal) :
      Written ⟨name, value :: values⟩ (.attributeName name :: .firstValue value ::
        values.map .nextValue ++ [.valueEnd])

theorem AttributeGroup.written (g : AttributeGroup) : g.Written g.instructions := by
  obtain ⟨name, values⟩ := g
  cases values with
  | nil => exact .bare name
  | cons value values => exact .valued name value values

/-- What stands behind the attributes of a tag. -/
def Instruction.isTagEnd : Instruction → Bool
  | startTagEnd _ | voidEnd => true
  | _ => false

theorem Instruction.isOutside_of_isTagEnd {i : Instruction} (h : i.isTagEnd) : i.isOutside := by
  cases i <;> first | rfl | cases h

namespace Branch

def tagGroups (branches : List Branch) : List AttributeGroup :=
  AttributeGroup.gather ((branches.filterMap attribute?).map fun a => (a.1, a.2.map Prod.snd))

theorem map_instruction_tag (branches : List Branch) :
    ((groups branches).flatMap Group.code).map Sourced.instruction =
      (tagGroups branches).flatMap AttributeGroup.instructions := by
  rw [tagGroups, AttributeGroup.gather_map, List.flatMap_map, List.map_flatMap]
  exact List.flatMap_congr fun g _ => g.map_instruction_code

theorem exists_elementCode (o : Nat) (name : ElementName) (children : List Branch)
    (inner : List Sourced) : ∃ span last rest, elementCode o name children inner =
      ⟨.startTag name span, some o⟩ :: (groups children).flatMap Group.code ++ last :: rest ∧
        last.instruction.isTagEnd := by
  rw [elementCode, bodyCode]
  by_cases hv : name.kind.isVoid
  · rw [if_pos hv]
    exact ⟨_, _, [], rfl, rfl⟩
  · rw [if_neg hv]
    exact ⟨_, _, _, rfl, rfl⟩

theorem infix_elementCode {name : ElementName} (hv : ¬ name.kind.isVoid) (o : Nat)
    (children : List Branch) (inner : List Sourced) :
    inner <:+: elementCode o name children inner := by
  rw [elementCode, bodyCode, if_neg hv]
  refine List.infix_cons (List.infix_append_of_infix_right ?_)
  exact List.infix_append_of_infix_left (List.infix_cons List.infix_rfl)

namespace Grown

variable {offset : Nat} {blocks : List Block} {refs owned : List Nat} {branches : List Branch}

/-- **The code of an element lies in the code of the branches** that it is one of or lies in. -/
theorem exists_infix (h : Grown (Block.placedAll offset blocks) refs branches) {o : Nat}
    {name : ElementName} {inner : List Block}
    (hmem : (o, Block.element name inner owned) ∈ Block.placedAll offset blocks)
    (ho : o ∈ offsetsAll branches) : ∃ children,
      Grown (Block.placedAll offset blocks) owned children ∧
      elementCode o name children (codeAll children) <:+: codeAll branches := by
  have hlookup := Block.lookup_placedAll hmem
  induction h with
  | nil => cases ho
  | leaf hleaf rest ih =>
    rcases List.mem_cons.1 ho with rfl | ho
    · cases hlookup.symm.trans (Block.lookup_placedAll hleaf)
    · obtain ⟨children, hgrown, hcode⟩ := ih ho
      exact ⟨children, hgrown, List.infix_append_of_infix_right hcode⟩
  | @element o' name' inner' owned' refs children branches hmem' hvoid inside rest ih₁ ih₂ =>
    rcases List.mem_cons.1 ho with rfl | ho
    · cases hlookup.symm.trans (Block.lookup_placedAll hmem')
      exact ⟨children, inside, List.infix_append_left⟩
    rcases List.mem_append.1 ho with ho | ho
    · obtain ⟨children', hgrown, hcode⟩ := ih₁ ho
      -- a void element has no code inside of its own
      have hv : ¬ name'.kind.isVoid := by
        intro hv
        rw [hvoid hv, List.infix_nil] at hcode
        cases hcode
      have hinner := infix_elementCode hv o' children (codeAll children)
      exact ⟨children', hgrown, hcode.trans (List.infix_append_of_infix_left hinner)⟩
    · obtain ⟨children', hgrown, hcode⟩ := ih₂ ho
      exact ⟨children', hgrown, List.infix_append_of_infix_right hcode⟩

theorem exists_records {t : Recording} {root : List Nat} (ht : t.Formed blocks root)
    (h : Grown (Block.placedAll 0 blocks) refs branches) : ∃ records,
      refs.mapM t.record = .ok records ∧ AttributeGroup.gather (records.filterMap
        Record.attribute?) = tagGroups branches := by
  rw [tagGroups]
  suffices hsuff : ∃ records, refs.mapM t.record = .ok records ∧ records.filterMap
      Record.attribute? = (branches.filterMap attribute?).map fun a => (a.1, a.2.map Prod.snd) by
    obtain ⟨records, hrecords, hattrs⟩ := hsuff
    exact ⟨records, hrecords, by rw [hattrs]⟩
  induction h with
  | nil => exact ⟨[], rfl, rfl⟩
  | @leaf o l refs branches hmem rest ih =>
    obtain ⟨records, hrecords, hattrs⟩ := ih
    have hread : t.record o = .ok (.leaf l) := ht.reads _ hmem
    refine ⟨.leaf l :: records, ?_, ?_⟩
    · rw [List.mapM_cons, hread, hrecords]
      rfl
    · cases l with
      | valued name value => exact congrArg (List.cons _) hattrs
      | boolean name => exact congrArg (List.cons _) hattrs
      | text value => exact hattrs
      | raw value => exact hattrs
      | doctype => exact hattrs
  | @element o name inner owned refs children branches hmem hvoid inside rest _ ih =>
    obtain ⟨records, hrecords, hattrs⟩ := ih
    have hread : t.record o = .ok (Block.element name inner owned).record := ht.reads _ hmem
    refine ⟨(Block.element name inner owned).record :: records, ?_, hattrs⟩
    rw [List.mapM_cons, hread, hrecords]
    rfl

end Grown

end Branch

/-! ### Recordings -/

/-- The start tag that is made from the record at `o` has the groups, and they are read there. -/
def Document.TagHas (d : Document) (code : List Sourced) (o : Nat) (name : ElementName)
    (groups : List AttributeGroup) : Prop :=
  ∃ before span tag last after,
    code = before ++ ⟨.startTag name span, some o⟩ :: tag ++ last :: after ∧
    last.instruction.isTagEnd ∧
    (∃ rows, List.Forall₂ AttributeGroup.Written groups rows ∧
      tag.map Sourced.instruction = rows.flatten) ∧
    (d.groupsFrom (Instruction.totalWidth (before.map Sourced.instruction) + 3)).1 = groups

theorem Branch.tagHas {d : Document} {code : List Sourced} {o : Nat} {name : ElementName}
    {children : List Branch} (hhas : d.Has 0 (code.map Sourced.instruction))
    (hcode : elementCode o name children (codeAll children) <:+: code) :
    d.TagHas code o name (tagGroups children) := by
  obtain ⟨before, after, rfl⟩ := hcode
  obtain ⟨span, last, rest, hcode, hlast⟩ := exists_elementCode o name children (codeAll children)
  rw [hcode] at hhas ⊢
  refine ⟨before, span, (groups children).flatMap Group.code, last, rest ++ after, by simp, hlast,
    ?_, ?_⟩
  · refine ⟨(tagGroups children).map AttributeGroup.instructions, ?_, ?_⟩
    · exact List.forall₂_map_right_iff.2 (List.forall₂_same.2 fun g _ => g.written)
    · rw [map_instruction_tag, List.flatMap_def]
  · have htag : d.Has (Instruction.totalWidth (before.map Sourced.instruction) + 3)
        ((tagGroups children).flatMap AttributeGroup.instructions ++
          last.instruction :: (rest ++ after).map Sourced.instruction) := by
      rw [← map_instruction_tag]
      simp only [List.map_append, List.append_assoc, List.map_cons, List.cons_append] at hhas
      have := hhas.right.tail
      rwa [Nat.zero_add, ← List.map_append] at this
    rw [Document.groupsFrom_eq _ (Instruction.isOutside_of_isTagEnd hlast) htag]

namespace Recording

variable {t : Recording}

/-- The document has one instruction from each record of the recording, and its start tags have the
groups of the attributes that the references of the elements lead to. -/
structure Coalesced (t : Recording) (blocks : List Block) (d : Document) (code : List Sourced) :
    Prop where
  instructions : d.instructions.map Prod.snd = code.map Sourced.instruction
  traced : Block.Traced blocks code
  tags : ∀ o name inner refs, (o, Block.element name inner refs) ∈ Block.placedAll 0 blocks →
    ∃ records groups, refs.mapM t.record = .ok records ∧
      Coalesces (records.filterMap Record.attribute?) groups ∧ d.TagHas code o name groups

/-- **The attributes of an element coalesce by name.**  One instruction is made from each record, and
the start tag that is made from an element has the groups of the attributes that the element's
references lead to. -/
theorem coalesced_of_madeBy {calls : List SpelledCall} (h : t.MadeBy calls) :
    ∃ (blocks : List Block) (root : List Nat) (d : Document) (code : List Sourced),
      t.Formed blocks root ∧ t.compile = .ok d ∧ t.Coalesced blocks d code := by
  obtain ⟨draft, blocks, refs, _, _, _, hlaid⟩ := h.laid
  obtain ⟨branches, hgrown, hnodes, hcode⟩ := hlaid.exists_branches
  have hformed := hlaid.formed
  have howned := hlaid.owned h
  refine ⟨blocks, refs.map Ref.record, _, Branch.codeAll branches, hformed, hlaid.compile, ?_,
    hformed.traced howned hgrown hnodes, fun o name inner owned hmem => ?_⟩
  · rw [Document.instructions_eq rfl, Instruction.map_snd_placedAll, hcode]
  · have ho : o ∈ Branch.offsetsAll branches :=
      (hformed.perm_offsets howned hgrown).mem_iff.2 (Block.mem_offsets.2 ⟨_, hmem, rfl⟩)
    obtain ⟨children, hchildren, hinfix⟩ := hgrown.exists_infix hmem ho
    obtain ⟨records, hrecords, hgroups⟩ := hchildren.exists_records hformed
    refine ⟨records, _, hrecords, coalesces_gather _, ?_⟩
    rw [hgroups]
    refine Branch.tagHas ?_ hinfix
    rw [hcode]
    exact ⟨[], [], by simp, rfl⟩

theorem card_coalesced : card.MadeBy cardCalls ∧
    ∃ (blocks : List Block) (root : List Nat) (d : Document) (code : List Sourced),
      card.Formed blocks root ∧ card.compile = .ok d ∧ card.Coalesced blocks d code :=
  ⟨card_madeBy, coalesced_of_madeBy card_madeBy⟩

end Recording

end HtmlTape
