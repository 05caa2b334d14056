import HtmlTape.Proofs.Code.Placed
import HtmlTape.Proofs.Recorder.Course
import HtmlTape.Proofs.Recorder.Shows

/-!
# Trees as bytecode

`Tree.instructionsAll` writes the trees of a document as bytecode, and `Tree.SoundAll` says when
the bytecode can be read: names have a text, literals name the texts they are meant to, the
attributes of an element differ in their names, and void elements have no children.  A document
spells trees if its words are those of the bytecode and the trees are sound for its names and its
pool (`Document.Spells`).
-/

namespace HtmlTape

/-! ### Bytecode -/

def Group.attribute (g : Group Quote) : AttributeGroup := ⟨g.name, g.values.map Quote.literal⟩

mutual

/-- The bytecode of a tree. -/
def Tree.instructions : Tree Quote → List Instruction
  | .doctype => [.doctype]
  | .text q => [.text q.literal]
  | .raw q => [.raw q.literal]
  | .element name groups children =>
    elementInstructions name (groups.map Group.attribute)
      (if name.kind.isVoid then .void
        else .children (!children.isEmpty) (Tree.instructionsAll children))

def Tree.instructionsAll : List (Tree Quote) → List Instruction
  | [] => []
  | tree :: rest => tree.instructions ++ Tree.instructionsAll rest

end

theorem Tree.instructionsAll_append (as bs : List (Tree Quote)) :
    Tree.instructionsAll (as ++ bs) = Tree.instructionsAll as ++ Tree.instructionsAll bs := by
  induction as with
  | nil => rfl
  | cons a as ih =>
    rw [List.cons_append, Tree.instructionsAll, ih, Tree.instructionsAll, List.append_assoc]

theorem Tree.totalWidth_pos (tree : Tree Quote) :
    0 < Instruction.totalWidth tree.instructions := by
  cases tree with
  | element name groups children =>
    rw [Tree.instructions, elementInstructions.eq_def, Instruction.totalWidth_cons]
    exact Nat.add_pos_left (Instruction.width_pos _) _
  | doctype => exact Nat.one_pos
  | text q => exact Nat.succ_pos 2
  | raw q => exact Nat.succ_pos 2

/-- **A scan that passes over seen names** finds the other names in order, with all their values. -/
theorem AttributeGroup.gatherFrom_eq (attributes : List (AttributeName × Option Literal)) :
    ∀ seen : List AttributeName, gatherFrom seen attributes =
      ((attributes.map Prod.fst).filter (· ∉ seen)).eraseDups.map fun name =>
        ⟨name, valuesOf name attributes⟩ := by
  induction attributes with
  | nil => intro seen; rfl
  | cons a rest ih =>
    intro seen
    -- the attribute gives its value to none of the groups that open behind it
    have hrest : gatherFrom (a.1 :: seen) rest =
        ((rest.map Prod.fst).filter (· ∉ a.1 :: seen)).eraseDups.map fun name =>
          ⟨name, valuesOf name (a :: rest)⟩ := by
      rw [ih]
      refine List.map_congr_left fun name hname => ?_
      have hne : a.1 ≠ name := by
        rintro rfl
        simpa using (List.mem_filter.1 (List.mem_eraseDups.1 hname)).2
      rw [valuesOf_cons, if_neg hne, Option.toList_none, List.nil_append]
    rw [gatherFrom, hrest, List.map_cons]
    by_cases hseen : a.1 ∈ seen
    · have hskip : (rest.map Prod.fst).filter (· ∉ a.1 :: seen) =
          (rest.map Prod.fst).filter (· ∉ seen) := by
        refine List.filter_congr fun name _ => ?_
        by_cases hname : name = a.1 <;> simp [hname, hseen]
      rw [if_pos hseen, hskip, List.filter_cons_of_neg (by simpa using hseen)]
    · have hskip : (rest.map Prod.fst).filter (· ∉ a.1 :: seen) =
          ((rest.map Prod.fst).filter (· ∉ seen)).filter (!· == a.1) := by
        rw [List.filter_filter]
        refine List.filter_congr fun name _ => ?_
        by_cases hname : name = a.1 <;> simp [hname]
      rw [if_neg hseen, hskip, List.filter_cons_of_pos (by simpa using hseen),
        List.eraseDups_cons, List.map_cons]

theorem AttributeGroup.gather_eq (attributes : List (AttributeName × Option Literal)) :
    gather attributes = (Group.gather attributes).map fun g => ⟨g.name, g.values⟩ := by
  have hall : (attributes.map Prod.fst).filter (· ∉ ([] : List AttributeName)) =
      attributes.map Prod.fst := by simp
  rw [gather, gatherFrom_eq, hall, Group.gather, List.map_map]
  rfl

/-- **Gathering does not look at the values.** -/
theorem AttributeGroup.gather_map {τ : Type} (f : τ → Literal)
    (attributes : List (AttributeName × Option τ)) :
    gather (attributes.map fun a => (a.1, a.2.map f)) =
      (Group.gather attributes).map fun g => ⟨g.name, g.values.map f⟩ := by
  rw [gather_eq, Group.gather_map, List.map_map]
  rfl

theorem AttributeGroup.gather_literal (attributes : List (AttributeName × Option Quote)) :
    AttributeGroup.gather (attributes.map fun a => (a.1, a.2.map Quote.literal)) =
      (Group.gather attributes).map Group.attribute :=
  gather_map Quote.literal attributes

/-! ### Groups -/

/-- **No name occurs in two of the groups** that attributes are gathered in. -/
theorem Group.nodup_gather {τ : Type} (attributes : List (AttributeName × Option τ)) :
    ((Group.gather attributes).map Group.name).Nodup := by
  rw [Group.gather, List.map_map]
  have hname : (Group.name ∘ fun name => (⟨name, valuesOf name attributes⟩ : Group τ)) = id := rfl
  rw [hname, List.map_id]
  exact nodup_eraseDups _

theorem Group.mem_gather {τ : Type} {attributes : List (AttributeName × Option τ)} {g : Group τ}
    (h : g ∈ Group.gather attributes) : (∃ value, (g.name, value) ∈ attributes) ∧
      ∀ value ∈ g.values, (g.name, some value) ∈ attributes := by
  obtain ⟨name, hname, rfl⟩ := List.mem_map.1 h
  obtain ⟨⟨name, value⟩, ha, rfl⟩ := List.mem_map.1 (List.mem_eraseDups.1 hname)
  refine ⟨⟨value, ha⟩, fun v hv => ?_⟩
  obtain ⟨⟨name', value'⟩, ha', hv⟩ := List.mem_filterMap.1 hv
  by_cases hn : name' = name
  · subst hn
    simp only [if_pos] at hv
    subst hv
    exact ha'
  · simp only [if_neg hn] at hv
    cases hv

/-! ### Sound trees -/

/-- The name has a text, and the values are the texts that they are meant to be. -/
def Group.Sound (names : Names) (pool : String) (g : Group Quote) : Prop :=
  (names.attributeText? g.name).isSome ∧
    ∀ q ∈ g.values, q.literal.read? pool = some q.text

mutual

/-- The tree can be read with these names and this pool. -/
def Tree.Sound (names : Names) (pool : String) : Tree Quote → Prop
  | .doctype => True
  | .text q => q.literal.read? pool = some q.text
  | .raw q => q.literal.read? pool = some q.text
  | .element name groups children =>
    (names.elementText? name).isSome ∧ (groups.map Group.name).Nodup ∧
      (∀ g ∈ groups, g.Sound names pool) ∧ (name.kind.isVoid → children = []) ∧
      Tree.SoundAll names pool children

def Tree.SoundAll (names : Names) (pool : String) : List (Tree Quote) → Prop
  | [] => True
  | tree :: rest => tree.Sound names pool ∧ Tree.SoundAll names pool rest

end

theorem Tree.SoundAll.append {names : Names} {pool : String} {as bs : List (Tree Quote)}
    (h : Tree.SoundAll names pool as) (h' : Tree.SoundAll names pool bs) :
    Tree.SoundAll names pool (as ++ bs) := by
  induction as with
  | nil => exact h'
  | cons a as ih => exact ⟨h.1, ih h.2⟩

theorem Tree.Sound.children {names : Names} {pool : String} {name : ElementName}
    {groups : List (Group Quote)} {children : List (Tree Quote)}
    (h : (Tree.element name groups children).Sound names pool) :
    Tree.SoundAll names pool children :=
  h.2.2.2.2

theorem Document.literal_eq_ok {d : Document} {q : Quote}
    (h : q.literal.read? d.pool = some q.text) : d.literal q.literal = .ok q.text := by
  rw [literal, Literal.read, h]

theorem Document.mapM_literal {d : Document} {qs : List Quote}
    (h : ∀ q ∈ qs, q.literal.read? d.pool = some q.text) :
    (qs.map Quote.literal).mapM d.literal = .ok (qs.map Quote.text) := by
  rw [List.mapM_map]
  exact mapM_eq_ok fun q hq => literal_eq_ok (h q hq)

structure Document.Spells (d : Document) (forest : List (Tree Quote)) : Prop where
  code : d.code = (Instruction.allWords (Tree.instructionsAll forest)).toArray
  sound : Tree.SoundAll d.names d.pool forest

end HtmlTape
