import HtmlTape.Code.Compile
import HtmlTape.Event.Basic

/-!
# Items and trees

An item is an entry of a document that is being described: a mark, a finished element with its
items, or a fragment.  Attributes stand among the other items, in the order of recording.  A tree
is a node of a finished document: fragments are gone, and the attributes of an element are
gathered by name.  `Item.treesAll` turns the one into the other, and `Tree.eventsAll` reads trees
aloud.

Texts are of any type `τ`: a text may be given by itself, or by its range of a pool.
-/

namespace HtmlTape

variable {τ σ : Type}

/-- A leaf of a document, with its text. -/
inductive Mark (τ : Type) where
  | text (value : τ)
  | raw (value : τ)
  | doctype
  | valued (name : AttributeName) (value : τ)
  | boolean (name : AttributeName)
deriving DecidableEq

/-- An entry of a document that is being described. -/
inductive Item (τ : Type) where
  | mark (mark : Mark τ)
  | element (name : ElementName) (items : List (Item τ))
  | fragment (items : List (Item τ))

/-- An attribute with all of its values; without values it is written by its name alone. -/
structure Group (τ : Type) where
  name : AttributeName
  values : List τ

/-- A node of a finished document. -/
inductive Tree (τ : Type) where
  | doctype
  | text (value : τ)
  | raw (value : τ)
  | element (name : ElementName) (groups : List (Group τ)) (children : List (Tree τ))

/-! ### Induction over lists of items and of trees -/

/-- **Induction over a list of items**, with the items inside of its first one. -/
@[elab_as_elim]
theorem Item.forest_induction {motive : List (Item τ) → Prop} (nil : motive [])
    (mark : ∀ m rest, motive rest → motive (.mark m :: rest))
    (element : ∀ name items rest, motive items → motive rest →
      motive (.element name items :: rest))
    (fragment : ∀ items rest, motive items → motive rest → motive (.fragment items :: rest)) :
    ∀ items, motive items
  | [] => nil
  | .mark m :: rest => mark m rest (forest_induction nil mark element fragment rest)
  | .element name items :: rest =>
    element name items rest (forest_induction nil mark element fragment items)
      (forest_induction nil mark element fragment rest)
  | .fragment items :: rest =>
    fragment items rest (forest_induction nil mark element fragment items)
      (forest_induction nil mark element fragment rest)

/-- **Induction over a list of trees**, with the children of its first one. -/
@[elab_as_elim]
theorem Tree.forest_induction {motive : List (Tree τ) → Prop} (nil : motive [])
    (doctype : ∀ rest, motive rest → motive (.doctype :: rest))
    (text : ∀ value rest, motive rest → motive (.text value :: rest))
    (raw : ∀ value rest, motive rest → motive (.raw value :: rest))
    (element : ∀ name groups children rest, motive children → motive rest →
      motive (.element name groups children :: rest)) :
    ∀ trees, motive trees
  | [] => nil
  | .doctype :: rest => doctype rest (forest_induction nil doctype text raw element rest)
  | .text value :: rest => text value rest (forest_induction nil doctype text raw element rest)
  | .raw value :: rest => raw value rest (forest_induction nil doctype text raw element rest)
  | .element name groups children :: rest =>
    element name groups children rest (forest_induction nil doctype text raw element children)
      (forest_induction nil doctype text raw element rest)

/-! ### Other texts in the same place -/

/-- The mark with other texts. -/
def Mark.map (f : τ → σ) : Mark τ → Mark σ
  | text value => .text (f value)
  | raw value => .raw (f value)
  | doctype => .doctype
  | valued name value => .valued name (f value)
  | boolean name => .boolean name

mutual

def Item.map (f : τ → σ) : Item τ → Item σ
  | .mark m => .mark (m.map f)
  | .element name items => .element name (Item.mapAll f items)
  | .fragment items => .fragment (Item.mapAll f items)

def Item.mapAll (f : τ → σ) : List (Item τ) → List (Item σ)
  | [] => []
  | item :: rest => item.map f :: Item.mapAll f rest

end

theorem Item.mapAll_eq_map (f : τ → σ) (items : List (Item τ)) :
    Item.mapAll f items = items.map (Item.map f) := by
  induction items with
  | nil => rfl
  | cons item rest ih => rw [Item.mapAll, ih, List.map_cons]

def Group.map (f : τ → σ) (g : Group τ) : Group σ := ⟨g.name, g.values.map f⟩

mutual

def Tree.map (f : τ → σ) : Tree τ → Tree σ
  | .doctype => .doctype
  | .text value => .text (f value)
  | .raw value => .raw (f value)
  | .element name groups children =>
    .element name (groups.map (Group.map f)) (Tree.mapAll f children)

def Tree.mapAll (f : τ → σ) : List (Tree τ) → List (Tree σ)
  | [] => []
  | tree :: rest => tree.map f :: Tree.mapAll f rest

end

theorem Tree.mapAll_append (f : τ → σ) (as bs : List (Tree τ)) :
    Tree.mapAll f (as ++ bs) = Tree.mapAll f as ++ Tree.mapAll f bs := by
  induction as with
  | nil => rfl
  | cons a as ih => rw [List.cons_append, Tree.mapAll, ih, Tree.mapAll, List.cons_append]

theorem Tree.mapAll_eq_map (f : τ → σ) (trees : List (Tree τ)) :
    Tree.mapAll f trees = trees.map (Tree.map f) := by
  induction trees with
  | nil => rfl
  | cons tree rest ih => rw [Tree.mapAll, ih, List.map_cons]

theorem isEmpty_append {α : Type} (as bs : List α) :
    (as ++ bs).isEmpty = (as.isEmpty && bs.isEmpty) := by
  cases as <;> rfl

theorem Tree.isEmpty_mapAll (f : τ → σ) (trees : List (Tree τ)) :
    (Tree.mapAll f trees).isEmpty = trees.isEmpty := by
  cases trees <;> rfl

/-! ### Rows without repetitions -/

theorem nodup_eraseDups {α : Type} [BEq α] [LawfulBEq α] : ∀ as : List α, as.eraseDups.Nodup
  | [] => List.nodup_nil
  | a :: as => by
    rw [List.eraseDups_cons, List.nodup_cons]
    refine ⟨fun ha => ?_, nodup_eraseDups _⟩
    have := (List.mem_filter.1 (List.mem_eraseDups.1 ha)).2
    simp at this
termination_by as => as.length
decreasing_by
  rw [List.length_cons]
  exact Nat.lt_succ_of_le (List.length_filter_le _ _)

/-- A row with one more member, which may have come up before. -/
theorem eraseDups_concat {α : Type} [DecidableEq α] (as : List α) (a : α) :
    (as ++ [a]).eraseDups = if a ∈ as then as.eraseDups else as.eraseDups ++ [a] := by
  rw [List.eraseDups_append]
  by_cases h : a ∈ as <;> simp [List.removeAll, h, List.eraseDups_cons]

/-! ### From items to trees -/

def Mark.attribute? : Mark τ → Option (AttributeName × Option τ)
  | valued name value => some (name, some value)
  | boolean name => some (name, none)
  | text _ | raw _ | doctype => none

/-- Attributes are written into the start tag of their element. -/
def Mark.isAttribute (m : Mark τ) : Bool := m.attribute?.isSome

def Mark.trees : Mark τ → List (Tree τ)
  | text value => [.text value]
  | raw value => [.raw value]
  | doctype => [.doctype]
  | valued .. | boolean .. => []

/-- Gather attributes by name, in the order in which the names first occur.  The values of a name
keep their order. -/
def Group.gather (attributes : List (AttributeName × Option τ)) : List (Group τ) :=
  (attributes.map Prod.fst).eraseDups.map fun name => ⟨name, valuesOf name attributes⟩

mutual

/-- The attributes among an owner's items, with those of its fragments. -/
def Item.attributes : Item τ → List (AttributeName × Option τ)
  | .mark m => m.attribute?.toList
  | .element .. => []
  | .fragment items => Item.attributesAll items

def Item.attributesAll : List (Item τ) → List (AttributeName × Option τ)
  | [] => []
  | item :: rest => item.attributes ++ Item.attributesAll rest

end

mutual

/-- The trees that an item stands for: none for an attribute, several for a fragment. -/
def Item.trees : Item τ → List (Tree τ)
  | .mark m => m.trees
  | .element name items =>
    [.element name (Group.gather (Item.attributesAll items)) (Item.treesAll items)]
  | .fragment items => Item.treesAll items

def Item.treesAll : List (Item τ) → List (Tree τ)
  | [] => []
  | item :: rest => item.trees ++ Item.treesAll rest

end

theorem Mark.attribute?_map (f : τ → σ) (m : Mark τ) :
    (m.map f).attribute? = m.attribute?.map fun a => (a.1, a.2.map f) := by
  cases m <;> rfl

theorem Mark.trees_map (f : τ → σ) (m : Mark τ) : (m.map f).trees = Tree.mapAll f m.trees := by
  cases m <;> rfl

section

variable {κ : Type} [DecidableEq κ]

theorem valuesOf_cons (name : κ) (a : κ × Option τ) (rest : List (κ × Option τ)) :
    valuesOf name (a :: rest) = (if a.1 = name then a.2 else none).toList ++ valuesOf name rest := by
  rw [valuesOf, List.filterMap_cons]
  cases if a.1 = name then a.2 else none <;> rfl

theorem valuesOf_append (name : κ) (as bs : List (κ × Option τ)) :
    valuesOf name (as ++ bs) = valuesOf name as ++ valuesOf name bs := List.filterMap_append

theorem valuesOf_of_notMem {name : κ} {attributes : List (κ × Option τ)}
    (h : name ∉ attributes.map Prod.fst) : valuesOf name attributes = [] := by
  rw [valuesOf, List.filterMap_eq_nil_iff]
  intro a ha
  rw [if_neg]
  rintro rfl
  exact h (List.mem_map_of_mem ha)

theorem valuesOf_map (f : τ → σ) (name : κ) (attributes : List (κ × Option τ)) :
    valuesOf name (attributes.map fun a => (a.1, a.2.map f)) = (valuesOf name attributes).map f := by
  rw [valuesOf, valuesOf, List.filterMap_map, List.map_filterMap]
  refine congrArg (List.filterMap · attributes) (funext fun a => ?_)
  by_cases h : a.1 = name <;> simp [h]

end

theorem Group.gather_map (f : τ → σ) (attributes : List (AttributeName × Option τ)) :
    Group.gather (attributes.map fun a => (a.1, a.2.map f)) =
      (Group.gather attributes).map (Group.map f) := by
  have hname : (fun a : AttributeName × Option τ => (a.1, a.2.map f).1) = Prod.fst := rfl
  rw [Group.gather, Group.gather, List.map_map, List.map_map, Function.comp_def, hname]
  exact List.map_congr_left fun name _ => congrArg (Group.mk name) (valuesOf_map f name attributes)

theorem Item.attributesAll_mapAll (f : τ → σ) (items : List (Item τ)) :
    Item.attributesAll (Item.mapAll f items) =
      (Item.attributesAll items).map fun a => (a.1, a.2.map f) := by
  induction items using Item.forest_induction with
  | nil => rfl
  | mark m rest ih =>
    rw [Item.mapAll, Item.map, Item.attributesAll, ih, Item.attributesAll, List.map_append,
      Item.attributes, Item.attributes, Mark.attribute?_map]
    cases m.attribute? <;> rfl
  | element name items rest _ ih => exact ih
  | fragment items rest ih₁ ih₂ =>
    rw [Item.mapAll, Item.map, Item.attributesAll, ih₂, Item.attributesAll, List.map_append,
      Item.attributes, Item.attributes, ih₁]

/-- **Making trees does not look at the texts.** -/
theorem Item.treesAll_mapAll (f : τ → σ) (items : List (Item τ)) :
    Item.treesAll (Item.mapAll f items) = Tree.mapAll f (Item.treesAll items) := by
  induction items using Item.forest_induction with
  | nil => rfl
  | mark m rest ih =>
    rw [Item.mapAll, Item.map, Item.treesAll, ih, Item.treesAll, Tree.mapAll_append,
      Item.trees, Item.trees, Mark.trees_map]
  | element name items rest ih₁ ih₂ =>
    rw [Item.mapAll, Item.map, Item.treesAll, ih₂, Item.treesAll, Tree.mapAll_append,
      Item.trees, Item.trees, ih₁, Item.attributesAll_mapAll, Group.gather_map]
    rfl
  | fragment items rest ih₁ ih₂ =>
    rw [Item.mapAll, Item.map, Item.treesAll, ih₂, Item.treesAll, Tree.mapAll_append,
      Item.trees, Item.trees, ih₁]

/-! ### Reading trees aloud -/

def Names.tag (names : Names) (name : ElementName) : String :=
  (names.elementText? name).getD ""

def Names.attr (names : Names) (name : AttributeName) : String :=
  (names.attributeText? name).getD ""

theorem Names.elementText_eq {names : Names} {name : ElementName}
    (h : (names.elementText? name).isSome) : names.elementText name = .ok (names.tag name) := by
  obtain ⟨text, htext⟩ := Option.isSome_iff_exists.1 h
  rw [Names.elementText, Names.tag, htext, Option.getD_some]

theorem Names.attributeText_eq {names : Names} {name : AttributeName}
    (h : (names.attributeText? name).isSome) :
    names.attributeText name = .ok (names.attr name) := by
  obtain ⟨text, htext⟩ := Option.isSome_iff_exists.1 h
  rw [Names.attributeText, Names.attr, htext, Option.getD_some]

def Group.events (names : Names) (g : Group String) : List Event :=
  .attributeName (names.attr g.name) :: Event.ofValues g.values

mutual

/-- The events of a tree: for an element its start tag with its attributes, its children and its
end tag; a void element has neither children nor an end tag. -/
def Tree.events (names : Names) : Tree String → List Event
  | .doctype => [.doctype]
  | .text value => [.text value]
  | .raw value => [.raw value]
  | .element name groups children =>
    .startTag (names.tag name) name.kind :: groups.flatMap (Group.events names) ++
      if name.kind.isVoid then [.voidEnd]
      else .startTagEnd (!children.isEmpty) :: Tree.eventsAll names children ++
        [.endTag (names.tag name) name.kind]

def Tree.eventsAll (names : Names) : List (Tree String) → List Event
  | [] => []
  | tree :: rest => tree.events names ++ Tree.eventsAll names rest

end

end HtmlTape
