import HtmlTape.Proofs.Draft.Item
import HtmlTape.Proofs.Recorder.Course

/-!
# Drafts

A draft is a recorder without words and offsets: the stack of its levels, each with the list of
its items, and the names.  Every call does to a draft what it is meant to do to a document.  A
call that records something appends an item; opening an element moves items from the end of the
innermost level into a new level; closing one appends it to the level around it as one item.

An answer `none` means that the call is out of place.
-/

namespace HtmlTape

variable {τ σ : Type}

/-- A level of a draft, with the items it owns. -/
structure Sheet (τ : Type) where
  scope : Scope
  items : List (Item τ)

/-- A document that is being described. -/
structure Draft (τ : Type) where
  /-- The innermost level. -/
  current : Sheet τ
  /-- The levels around it, the innermost of them first. -/
  outer : List (Sheet τ)
  names : Names

def Sheet.add (sheet : Sheet τ) (item : Item τ) : Sheet τ :=
  { sheet with items := sheet.items ++ [item] }

/-- The level without its last `count` items. -/
def Sheet.keep (sheet : Sheet τ) (count : Nat) : Sheet τ :=
  { sheet with items := sheet.items.take (sheet.items.length - count) }

/-- The last `count` items of a level. -/
def Sheet.taken (sheet : Sheet τ) (count : Nat) : List (Item τ) :=
  sheet.items.drop (sheet.items.length - count)

namespace Draft

def new : Draft τ := ⟨⟨.root, []⟩, [], Names.standard⟩

def add (m : Draft τ) (item : Item τ) : Draft τ :=
  { m with current := m.current.add item }

/-- Open a level with some first items and with the last `count` items of the innermost level,
which must have as many. -/
def enter (m : Draft τ) (scope : Scope) (first : List (Item τ)) (count : Nat) :
    Option (Draft τ) :=
  if m.current.items.length < count then none
  else
    some { m with
      current := ⟨scope, first ++ m.current.taken count⟩
      outer := m.current.keep count :: m.outer }

/-- Close the innermost level, which must be an element. -/
def closeElement (m : Draft τ) : Option (Draft τ) :=
  match m.current.scope, m.outer with
  | .element name, parent :: outer =>
    some { m with current := parent.add (.element name m.current.items), outer }
  | _, _ => none

def endFragment (m : Draft τ) : Option (Draft τ) :=
  match m.current.scope, m.outer with
  | .fragment, parent :: outer =>
    some { m with current := parent.add (.fragment m.current.items), outer }
  | _, _ => none

def abortFragment (m : Draft τ) : Option (Draft τ) :=
  match m.current.scope, m.outer with
  | .fragment, parent :: outer => some { m with current := parent, outer }
  | _, _ => none

def claimed (args : List Token) : Nat := (args.filterMap Token.record?).length

/-- The draft after a call with names as codes. -/
def step (m : Draft String) : Call ElementName AttributeName → Option (Draft String)
  | .text value => some (m.add (.mark (.text value)))
  | .raw value => some (m.add (.mark (.raw value)))
  | .doctype => some (m.add (.mark .doctype))
  | .valued name value => some (m.add (.mark (.valued name value)))
  | .boolean name => some (m.add (.mark (.boolean name)))
  | .openElement name => m.enter (.element name) [] 0
  | .openWith name prepared args =>
    m.enter (.element name) (prepared.map fun p => .mark (.valued p.1 p.2)) (claimed args)
  | .adopt name count => m.enter (.element name) [] count
  | .closeElement => m.closeElement
  | .beginFragment => m.enter .fragment [] 0
  | .fragment args => (m.enter .fragment [] (claimed args)).bind endFragment
  | .endFragment => m.endFragment
  | .abortFragment => m.abortFragment
  | .finish => if m.outer.isEmpty then some new else none
  | .reset => some new
  | .nextId | .internElement _ | .internAttribute _ => some m

/-- The draft after a request.  Its names are looked up as a recorder that has the names of the
draft does it; if one of them is refused, nothing else happens. -/
def request (m : Draft String) (call : SpelledCall) : Option (Draft String) :=
  match (Lookup.call call).run { Recorder.new with names := m.names } with
  | (.ok call, r) => { m with names := r.names }.step call
  | (.error _, r) => some { m with names := r.names }

def requestEach (m : Draft String) (calls : List SpelledCall) : Option (Draft String) :=
  calls.foldlM request m

/-- The trees of a draft, once all levels but the outermost are closed. -/
def trees (m : Draft τ) : List (Tree τ) := Item.treesAll m.current.items

end Draft

/-! ### Other texts in the same place -/

def Sheet.map (f : τ → σ) (sheet : Sheet τ) : Sheet σ :=
  ⟨sheet.scope, sheet.items.map (Item.map f)⟩

def Draft.map (f : τ → σ) (m : Draft τ) : Draft σ :=
  ⟨m.current.map f, m.outer.map (Sheet.map f), m.names⟩

theorem Sheet.map_add (f : τ → σ) (sheet : Sheet τ) (item : Item τ) :
    (sheet.add item).map f = (sheet.map f).add (item.map f) := by
  rw [Sheet.add, Sheet.map, List.map_append]
  rfl

theorem Sheet.map_keep (f : τ → σ) (sheet : Sheet τ) (count : Nat) :
    (sheet.keep count).map f = (sheet.map f).keep count := by
  rw [Sheet.keep, Sheet.keep, Sheet.map, Sheet.map, List.map_take, List.length_map]

theorem Sheet.map_taken (f : τ → σ) (sheet : Sheet τ) (count : Nat) :
    (sheet.taken count).map (Item.map f) = (sheet.map f).taken count := by
  rw [Sheet.taken, Sheet.taken, Sheet.map, List.map_drop, List.length_map]

namespace Draft

theorem map_add (f : τ → σ) (m : Draft τ) (item : Item τ) :
    (m.add item).map f = (m.map f).add (item.map f) := by
  rw [add, map, Sheet.map_add]
  rfl

theorem enter_map (f : τ → σ) (m : Draft τ) (scope : Scope) (first : List (Item τ))
    (count : Nat) : (m.map f).enter scope (first.map (Item.map f)) count =
      (m.enter scope first count).map (map f) := by
  have hlen : (m.map f).current.items.length = m.current.items.length :=
    List.length_map (Item.map f)
  rw [enter, enter, hlen]
  by_cases h : m.current.items.length < count
  · rw [if_pos h, if_pos h]
    rfl
  · rw [if_neg h, if_neg h]
    show _ = some (Draft.mk ⟨scope, (first ++ m.current.taken count).map (Item.map f)⟩
      ((m.current.keep count).map f :: m.outer.map (Sheet.map f)) m.names)
    rw [List.map_append, Sheet.map_taken, Sheet.map_keep]
    rfl

theorem enter_map_eq (f : τ → σ) {m m' : Draft τ} {scope : Scope} {first : List (Item τ)}
    {count : Nat} (h : m.enter scope first count = some m') :
    (m.map f).enter scope (first.map (Item.map f)) count = some (m'.map f) := by
  rw [enter_map, h]
  rfl

theorem enter_eq_some {m m' : Draft τ} {scope : Scope} {first : List (Item τ)} {count : Nat}
    (h : m.enter scope first count = some m') :
    m' = ⟨⟨scope, first ++ m.current.taken count⟩, m.current.keep count :: m.outer, m.names⟩ := by
  rw [enter] at h
  by_cases hlt : m.current.items.length < count
  · rw [if_pos hlt] at h
    cases h
  · rw [if_neg hlt] at h
    cases h
    rfl

theorem closeElement_map (f : τ → σ) (m : Draft τ) :
    (m.map f).closeElement = m.closeElement.map (map f) := by
  obtain ⟨⟨scope, items⟩, outer, names⟩ := m
  cases scope <;> cases outer <;> try rfl
  rename_i name parent outer
  simp only [closeElement, map, Sheet.map, Sheet.add, List.map_cons, Option.map_some,
    List.map_append, Item.map, Item.mapAll_eq_map, List.map_nil]

theorem endFragment_map (f : τ → σ) (m : Draft τ) :
    (m.map f).endFragment = m.endFragment.map (map f) := by
  obtain ⟨⟨scope, items⟩, outer, names⟩ := m
  cases scope <;> cases outer <;> try rfl
  simp only [endFragment, map, Sheet.map, Sheet.add, List.map_cons, Option.map_some,
    List.map_append, Item.map, Item.mapAll_eq_map, List.map_nil]

theorem abortFragment_map (f : τ → σ) (m : Draft τ) :
    (m.map f).abortFragment = m.abortFragment.map (map f) := by
  obtain ⟨⟨scope, items⟩, outer, names⟩ := m
  cases scope <;> cases outer <;> rfl

theorem trees_map (f : τ → σ) (m : Draft τ) : (m.map f).trees = Tree.mapAll f m.trees := by
  rw [trees, trees, ← Item.treesAll_mapAll, Item.mapAll_eq_map]
  rfl

end Draft

end HtmlTape
