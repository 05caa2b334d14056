import HtmlTape.Proofs.Draft.Smooth

/-!
# Attributes that are joined

An attribute that is recorded several times for one element can be recorded once instead: at the
first of its places, with its values one after another and a blank between them
(`Item.joinName`).  `Item.Joined` does this for any names of any elements of a document.

The groups of an element keep their order and their names, and the values of a joined group become
one (`Item.gather_joinName`).  Nothing else changes: a joined element has the same trees inside
(`Item.treesAll_joinName`).
-/

namespace HtmlTape

/-! ### One attribute -/

mutual

def Item.without (name : AttributeName) : Item String → List (Item String)
  | .mark m => if m.attribute?.any (·.1 = name) then [] else [.mark m]
  | .element tag items => [.element tag items]
  | .fragment items => [.fragment (Item.withoutAll name items)]

/-- An owner's items without the attributes of a name. -/
def Item.withoutAll (name : AttributeName) : List (Item String) → List (Item String)
  | [] => []
  | item :: rest => item.without name ++ Item.withoutAll name rest

end

/-- The name has an attribute among an owner's items. -/
def Item.hasName (name : AttributeName) (items : List (Item String)) : Bool :=
  name ∈ (Item.attributesAll items).map Prod.fst

mutual

def Item.once (name : AttributeName) (value : String) : Item String → Item String
  | .mark _ => .mark (.valued name value)
  | .element tag items => .element tag items
  | .fragment items => .fragment (Item.onceAll name value items)

/-- An owner's items in which the first attribute of a name has the value, and every other one is
left out. -/
def Item.onceAll (name : AttributeName) (value : String) : List (Item String) → List (Item String)
  | [] => []
  | item :: rest =>
    if Item.hasName name [item] then item.once name value :: Item.withoutAll name rest
    else item :: Item.onceAll name value rest

end

/-- An owner's items with the attributes of a name recorded once, at the first of their places, with
the values of all of them.  A name without values is left as it is. -/
def Item.joinName (items : List (Item String)) (name : AttributeName) : List (Item String) :=
  match valuesOf name (Item.attributesAll items) with
  | [] => items
  | value :: values => Item.onceAll name (" ".intercalate (value :: values)) items

def Item.joinNames (names : List AttributeName) (items : List (Item String)) :
    List (Item String) :=
  names.foldl Item.joinName items

/-- The second items are the first ones with attributes joined, of any names at any elements. -/
inductive Item.Joined : List (Item String) → List (Item String) → Prop where
  | nil : Joined [] []
  | mark (m : Mark String) {rest rest' : List (Item String)} : Joined rest rest' →
    Joined (.mark m :: rest) (.mark m :: rest')
  | element (tag : ElementName) (names : List AttributeName)
    {items items' rest rest' : List (Item String)} : Joined items items' → Joined rest rest' →
    Joined (.element tag items :: rest) (.element tag (Item.joinNames names items') :: rest')
  | fragment {items items' rest rest' : List (Item String)} : Joined items items' →
    Joined rest rest' → Joined (.fragment items :: rest) (.fragment items' :: rest')

/-- The group with its values as one, with blanks between them. -/
def Group.joined (g : Group String) : Group String :=
  match g.values with
  | [] => g
  | value :: values => ⟨g.name, [" ".intercalate (value :: values)]⟩

/-- In the second attributes the first one of a name has the value, and every other one is left
out. -/
def Group.Once (name : AttributeName) (value : String)
    (attributes attributes' : List (AttributeName × Option String)) : Prop :=
  ∃ before old after, attributes = before ++ (name, old) :: after ∧ name ∉ before.map Prod.fst ∧
    attributes' = before ++ (name, some value) :: after.filter (·.1 ≠ name)

/-- What stands behind the first place of `a` may be without `a`, when repetitions are left out. -/
theorem eraseDups_filter_ne {α : Type} [DecidableEq α] {a : α} {before : List α} (h : a ∉ before)
    (after : List α) :
    (before ++ a :: after.filter (· ≠ a)).eraseDups = (before ++ a :: after).eraseDups := by
  have hkeep : ∀ others, (a :: others).removeAll before = a :: others.removeAll before :=
    fun others => List.filter_cons_of_pos (by simpa using h)
  rw [List.eraseDups_append, List.eraseDups_append, hkeep, hkeep, List.eraseDups_cons,
    List.eraseDups_cons, List.removeAll, List.removeAll, List.filter_filter, List.filter_filter,
    List.filter_filter]
  congr 3
  refine List.filter_congr fun b _ => ?_
  by_cases hb : b = a <;> simp [hb]

namespace Group

variable {name : AttributeName}

theorem valuesOf_filter_ne {other : AttributeName} (h : other ≠ name)
    (attributes : List (AttributeName × Option String)) :
    valuesOf other (attributes.filter (·.1 ≠ name)) = valuesOf other attributes := by
  induction attributes with
  | nil => rfl
  | cons a as ih =>
    rw [List.filter_cons, valuesOf_cons]
    by_cases ha : a.1 = name
    · rw [if_neg (by simp [ha]), ih, if_neg (ha ▸ Ne.symm h)]
      rfl
    · rw [if_pos (by simp [ha]), valuesOf_cons, ih]

namespace Once

variable {value : String} {as as' : List (AttributeName × Option String)}

theorem skip {others : List (AttributeName × Option String)} (hothers : name ∉ others.map Prod.fst)
    (h : Once name value as as') : Once name value (others ++ as) (others ++ as') := by
  obtain ⟨before, old, after, rfl, hbefore, rfl⟩ := h
  refine ⟨others ++ before, old, after, (List.append_assoc _ _ _).symm, ?_,
    (List.append_assoc _ _ _).symm⟩
  rw [List.map_append, List.mem_append]
  exact not_or.2 ⟨hothers, hbefore⟩

/-- Of the attributes behind them those of the name are left out. -/
theorem append (h : Once name value as as') (rest : List (AttributeName × Option String)) :
    Once name value (as ++ rest) (as' ++ rest.filter (·.1 ≠ name)) := by
  obtain ⟨before, old, after, rfl, hbefore, rfl⟩ := h
  refine ⟨before, old, after ++ rest, List.append_assoc _ _ _, hbefore, ?_⟩
  rw [List.filter_append, List.append_assoc, List.cons_append]

/-- **The groups of attributes of which one name is recorded once.**  Only the group of this name
has other values. -/
theorem gather (h : Once name value as as') : gather as' =
    (gather as).map fun g => if g.name = name then ⟨name, [value]⟩ else g := by
  obtain ⟨before, old, after, rfl, h, rfl⟩ := h
  have hafter : (after.filter (·.1 ≠ name)).map Prod.fst =
      (after.map Prod.fst).filter (· ≠ name) := by
    rw [List.filter_map]
    rfl
  have hnames : ((before ++ (name, some value) :: after.filter (·.1 ≠ name)).map
      Prod.fst).eraseDups = ((before ++ (name, old) :: after).map Prod.fst).eraseDups := by
    rw [List.map_append, List.map_append, List.map_cons, List.map_cons, hafter]
    exact eraseDups_filter_ne h _
  have hvalues : valuesOf name (before ++ (name, some value) :: after.filter (·.1 ≠ name)) =
      [value] := by
    rw [valuesOf_append, valuesOf_cons, valuesOf_of_notMem h, if_pos rfl, valuesOf_of_notMem]
    · rfl
    · rw [hafter]
      simp
  rw [Group.gather, Group.gather, hnames, List.map_map]
  refine List.map_congr_left fun other _ => ?_
  rw [Function.comp_apply]
  by_cases hother : other = name
  · subst hother
    rw [if_pos rfl, hvalues]
  · rw [if_neg hother]
    congr 1
    rw [valuesOf_append, valuesOf_append, valuesOf_cons, valuesOf_cons, valuesOf_filter_ne hother,
      if_neg (Ne.symm hother), if_neg (Ne.symm hother)]

end Once

end Group

namespace Item

variable {name : AttributeName} {items items' : List (Item String)}

/-! ### What is left out -/

theorem attributesAll_withoutAll (name : AttributeName) (items : List (Item String)) :
    attributesAll (withoutAll name items) = (attributesAll items).filter (·.1 ≠ name) := by
  induction items using forest_induction with
  | nil => rfl
  | mark m rest ih =>
    rw [withoutAll, without, attributesAll_append, ih, attributesAll, List.filter_append]
    congr 1
    cases m with
    | valued other value =>
      by_cases h : other = name <;> simp [Mark.attribute?, attributes, attributesAll, h]
    | boolean other =>
      by_cases h : other = name <;> simp [Mark.attribute?, attributes, attributesAll, h]
    | text value | raw value | doctype => rfl
  | element tag items rest _ ih =>
    rw [withoutAll, without, attributesAll_append, ih, attributesAll_singleton]
    rfl
  | fragment items rest ih₁ ih₂ =>
    rw [withoutAll, without, attributesAll_append, ih₂, attributesAll_singleton, attributesAll,
      List.filter_append, attributes, attributes, ih₁]

theorem treesAll_withoutAll (name : AttributeName) (items : List (Item String)) :
    treesAll (withoutAll name items) = treesAll items := by
  induction items using forest_induction with
  | nil => rfl
  | mark m rest ih =>
    rw [withoutAll, without, treesAll_append, ih, treesAll]
    congr 1
    cases m with
    | valued other value | boolean other =>
      by_cases h : other = name <;> simp [Mark.attribute?, treesAll, trees, Mark.trees, h]
    | text value | raw value | doctype => rfl
  | element tag items rest _ ih =>
    rw [withoutAll, without, treesAll_append, ih, treesAll_singleton, treesAll]
  | fragment items rest ih₁ ih₂ =>
    rw [withoutAll, without, treesAll_append, ih₂, treesAll_singleton, treesAll, trees, trees, ih₁]

/-! ### What is recorded once -/

theorem hasName_cons (name : AttributeName) (item : Item String) (rest : List (Item String)) :
    hasName name (item :: rest) = (hasName name [item] || hasName name rest) := by
  simp only [hasName, attributesAll, List.map_append, List.append_nil, List.mem_append,
    Bool.decide_or]

theorem hasName_iff : hasName name items ↔ name ∈ (attributesAll items).map Prod.fst :=
  decide_eq_true_iff

/-- **The attributes of items in which a name is recorded once.** -/
theorem attributesAll_onceAll (value : String) (h : hasName name items) :
    Group.Once name value (attributesAll items) (attributesAll (onceAll name value items)) := by
  induction items using forest_induction with
  | nil => cases h
  | mark m rest ih =>
    rw [onceAll]
    by_cases hm : hasName name [.mark m]
    · obtain ⟨old, hold⟩ : ∃ old, m.attribute? = some (name, old) := by
        rw [hasName_iff, attributesAll_singleton, attributes] at hm
        obtain ⟨a, ha, rfl⟩ := List.mem_map.1 hm
        exact ⟨a.2, Option.mem_toList.1 ha⟩
      rw [if_pos hm, attributesAll, attributesAll, attributes, hold, attributesAll_withoutAll]
      exact ⟨[], old, attributesAll rest, rfl, List.not_mem_nil, rfl⟩
    · rw [hasName_cons, Bool.eq_false_iff.2 hm, Bool.false_or] at h
      rw [if_neg hm, attributesAll, attributesAll]
      rw [hasName_iff, attributesAll_singleton] at hm
      exact (ih h).skip hm
  | element tag items rest _ ih =>
    have hnone : hasName name [.element tag items] = false := rfl
    rw [hasName_cons, hnone, Bool.false_or] at h
    rw [onceAll, hnone, if_neg Bool.false_ne_true]
    exact ih h
  | fragment items rest ih₁ ih₂ =>
    have hinner : hasName name [.fragment items] = hasName name items := by
      rw [hasName, attributesAll_singleton, attributes, hasName]
    rw [onceAll, hinner]
    by_cases hm : hasName name items
    · rw [if_pos hm, attributesAll, attributesAll, attributes, once, attributes,
        attributesAll_withoutAll]
      exact (ih₁ hm).append _
    · rw [hasName_cons, hinner, Bool.eq_false_iff.2 hm, Bool.false_or] at h
      rw [if_neg hm, attributesAll, attributesAll, attributes]
      rw [hasName_iff] at hm
      exact (ih₂ h).skip hm

theorem treesAll_onceAll (name : AttributeName) (value : String) (items : List (Item String)) :
    treesAll (onceAll name value items) = treesAll items := by
  induction items using forest_induction with
  | nil => rfl
  | mark m rest ih =>
    rw [onceAll]
    by_cases hm : hasName name [.mark m]
    · rw [if_pos hm, treesAll, treesAll_withoutAll, treesAll]
      congr 1
      cases m with
      | valued other value | boolean other => rfl
      | text value | raw value | doctype => cases hm
    · rw [if_neg hm, treesAll, ih, treesAll]
  | element tag items rest _ ih =>
    rw [onceAll, if_neg (by rw [hasName]; exact Bool.false_ne_true), treesAll, ih, treesAll]
  | fragment items rest ih₁ ih₂ =>
    rw [onceAll]
    by_cases hm : hasName name [.fragment items]
    · rw [if_pos hm, treesAll, treesAll_withoutAll, treesAll, once, trees, trees, ih₁]
    · rw [if_neg hm, treesAll, ih₂, treesAll]

/-! ### What is joined -/

/-- **Joining an attribute leaves the trees of an owner as they are.** -/
theorem treesAll_joinName (items : List (Item String)) (name : AttributeName) :
    treesAll (joinName items name) = treesAll items := by
  rw [joinName]
  split
  · rfl
  · exact treesAll_onceAll name _ items

theorem hasName_of_valuesOf {value : String} {values : List String}
    (h : valuesOf name (attributesAll items) = value :: values) : hasName name items := by
  rw [hasName_iff]
  by_cases hname : name ∈ (attributesAll items).map Prod.fst
  · exact hname
  · rw [valuesOf_of_notMem hname] at h
    cases h

/-- **Joining an attribute joins the values of its group.** -/
theorem gather_joinName (items : List (Item String)) (name : AttributeName) :
    Group.gather (attributesAll (joinName items name)) =
      (Group.gather (attributesAll items)).map fun g => if g.name = name then g.joined else g := by
  have hgroup : ∀ g ∈ Group.gather (attributesAll items),
      g.values = valuesOf g.name (attributesAll items) := by
    intro g hg
    obtain ⟨other, _, rfl⟩ := List.mem_map.1 hg
    rfl
  rw [joinName]
  split
  · rename_i hvalues
    refine (List.map_id _).symm.trans (List.map_congr_left fun g hg => ?_)
    by_cases hname : g.name = name
    · have hnone : g.values = [] := by rw [hgroup g hg, hname, hvalues]
      rw [if_pos hname, Group.joined, hnone]
      rfl
    · rw [if_neg hname]
      rfl
  · rename_i value values hvalues
    rw [(attributesAll_onceAll _ (hasName_of_valuesOf hvalues)).gather]
    refine List.map_congr_left fun g hg => ?_
    by_cases hname : g.name = name
    · have hvalues : g.values = value :: values := by rw [hgroup g hg, hname, hvalues]
      rw [if_pos hname, if_pos hname, Group.joined, hvalues, hname]
    · rw [if_neg hname, if_neg hname]

theorem treesAll_joinNames (names : List AttributeName) (items : List (Item String)) :
    treesAll (joinNames names items) = treesAll items := by
  induction names generalizing items with
  | nil => rfl
  | cons name names ih => exact (ih (joinName items name)).trans (treesAll_joinName items name)

theorem Joined.attributesAll_eq (h : Joined items items') :
    attributesAll items' = attributesAll items := by
  induction h with
  | nil => rfl
  | mark m _ ih => rw [attributesAll, ih, attributesAll]
  | element _ _ _ _ _ ih => exact ih
  | fragment _ _ ih₁ ih₂ =>
    rw [attributesAll, ih₂, attributesAll, attributes, attributes, ih₁]

theorem Joined.isEmpty_treesAll (h : Joined items items') :
    (treesAll items').isEmpty = (treesAll items).isEmpty := by
  induction h with
  | nil => rfl
  | mark m _ ih => rw [treesAll, treesAll, isEmpty_append, isEmpty_append, ih]
  | element _ _ _ _ _ _ => rfl
  | fragment _ _ ih₁ ih₂ =>
    rw [treesAll, treesAll, trees, trees, isEmpty_append, isEmpty_append, ih₁, ih₂]

/-- The first of three records of a name is a boolean one; between them stand other entries. -/
example (a b c : AttributeName) (hb : b ≠ a) (hc : c ≠ a) :
    joinName [.mark (.boolean a), .mark (.valued b "u"),
      .fragment [.mark (.text "t"), .mark (.valued a "v")], .mark (.valued c "w"),
      .mark (.valued a "x")] a =
        [.mark (.valued a "v x"), .mark (.valued b "u"), .fragment [.mark (.text "t")],
          .mark (.valued c "w")] := by
  simp [joinName, valuesOf, attributesAll, attributes, Mark.attribute?, onceAll, hasName,
    once, withoutAll, without, hb, hc]

end Item

end HtmlTape
