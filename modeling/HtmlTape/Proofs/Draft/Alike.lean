import HtmlTape.Proofs.Draft.Machine
import HtmlTape.Proofs.Name.Twin

/-!
# Drafts that are alike

Items are alike if they differ by the codes of the same names alone (`Item.Alike`).  Attributes are
gathered by their codes, but as a code is told by its text they could as well be gathered by their
texts (`Group.events_gather`); so the trees of items that are alike are read aloud alike
(`Item.Alike.events_eq`).

Drafts are alike if their levels are.  Requests that are alike leave them alike
(`Draft.Alike.request`).
-/

namespace HtmlTape

/-! ### Items -/

/-- The marks differ by the codes of the same names alone. -/
inductive Mark.Alike (names names' : Names) : Mark String → Mark String → Prop where
  | text (value : String) : Alike names names' (.text value) (.text value)
  | raw (value : String) : Alike names names' (.raw value) (.raw value)
  | doctype : Alike names names' .doctype .doctype
  | valued {name name' : AttributeName} (value : String) : names.SameAttribute names' name name' →
    Alike names names' (.valued name value) (.valued name' value)
  | boolean {name name' : AttributeName} : names.SameAttribute names' name name' →
    Alike names names' (.boolean name) (.boolean name')

/-- The items differ by the codes of the same names alone. -/
inductive Item.Alike (names names' : Names) : List (Item String) → List (Item String) → Prop where
  | nil : Alike names names' [] []
  | mark {m m' : Mark String} {rest rest' : List (Item String)} : m.Alike names names' m' →
    Alike names names' rest rest' → Alike names names' (.mark m :: rest) (.mark m' :: rest')
  | element {name name' : ElementName} {items items' rest rest' : List (Item String)} :
    names.SameElement names' name name' → Alike names names' items items' →
    Alike names names' rest rest' →
    Alike names names' (.element name items :: rest) (.element name' items' :: rest')
  | fragment {items items' rest rest' : List (Item String)} : Alike names names' items items' →
    Alike names names' rest rest' →
    Alike names names' (.fragment items :: rest) (.fragment items' :: rest')

theorem Mark.Alike.mono {names names' wider wider' : Names} {m m' : Mark String}
    (h : m.Alike names names' m') (hn : names.Extends wider) (hn' : names'.Extends wider') :
    m.Alike wider wider' m' := by
  cases h with
  | text value => exact .text value
  | raw value => exact .raw value
  | doctype => exact .doctype
  | valued value hname => exact .valued value (hname.mono hn hn')
  | boolean hname => exact .boolean (hname.mono hn hn')

namespace Item.Alike

variable {names names' : Names} {items items' others others' : List (Item String)}

theorem mono {wider wider' : Names} (h : Item.Alike names names' items items')
    (hn : names.Extends wider) (hn' : names'.Extends wider') :
    Item.Alike wider wider' items items' := by
  induction h with
  | nil => exact .nil
  | mark hm _ ih => exact .mark (hm.mono hn hn') ih
  | element hname _ _ ih₁ ih₂ => exact .element (hname.mono hn hn') ih₁ ih₂
  | fragment _ _ ih₁ ih₂ => exact .fragment ih₁ ih₂

theorem length_eq (h : Item.Alike names names' items items') : items.length = items'.length := by
  induction h with
  | nil => rfl
  | mark _ _ ih | element _ _ _ _ ih | fragment _ _ _ ih => exact congrArg (· + 1) ih

theorem append (h : Item.Alike names names' items items')
    (g : Item.Alike names names' others others') :
    Item.Alike names names' (items ++ others) (items' ++ others') := by
  induction h with
  | nil => exact g
  | mark hm _ ih => exact .mark hm ih
  | element hname hitems _ _ ih => exact .element hname hitems ih
  | fragment hitems _ _ ih => exact .fragment hitems ih

theorem take (h : Item.Alike names names' items items') (n : Nat) :
    Item.Alike names names' (items.take n) (items'.take n) := by
  induction h generalizing n with
  | nil =>
    rw [List.take_nil]
    exact .nil
  | mark hm _ ih =>
    cases n with
    | zero => exact .nil
    | succ n => exact .mark hm (ih n)
  | element hname hitems _ _ ih =>
    cases n with
    | zero => exact .nil
    | succ n => exact .element hname hitems (ih n)
  | fragment hitems _ _ ih =>
    cases n with
    | zero => exact .nil
    | succ n => exact .fragment hitems (ih n)

theorem drop (h : Item.Alike names names' items items') (n : Nat) :
    Item.Alike names names' (items.drop n) (items'.drop n) := by
  induction h generalizing n with
  | nil =>
    rw [List.drop_nil]
    exact .nil
  | mark hm hrest ih =>
    cases n with
    | zero => exact .mark hm hrest
    | succ n => exact ih n
  | element hname hitems hrest _ ih =>
    cases n with
    | zero => exact .element hname hitems hrest
    | succ n => exact ih n
  | fragment hitems hrest _ ih =>
    cases n with
    | zero => exact .fragment hitems hrest
    | succ n => exact ih n

theorem attributes_eq (h : Item.Alike names names' items items') :
    (Item.attributesAll items).map (fun a => (names.attributeText? a.1, a.2)) =
      (Item.attributesAll items').map fun a => (names'.attributeText? a.1, a.2) := by
  induction h with
  | nil => rfl
  | @mark m m' rest rest' hm _ ih =>
    rw [Item.attributesAll, Item.attributesAll, List.map_append, List.map_append, ih]
    congr 1
    cases hm with
    | text value | raw value | doctype => rfl
    | valued value hname =>
      obtain ⟨text, ht, ht'⟩ := hname
      show [(_, _)] = [(_, _)]
      rw [ht, ht']
    | boolean hname =>
      obtain ⟨text, ht, ht'⟩ := hname
      show [(_, _)] = [(_, _)]
      rw [ht, ht']
  | element _ _ _ _ ih => exact ih
  | fragment _ _ ih₁ ih₂ =>
    rw [Item.attributesAll, Item.attributesAll, List.map_append, List.map_append, ih₂,
      Item.attributes, Item.attributes, ih₁]

theorem attributes_isSome (h : Item.Alike names names' items items') :
    ∀ a ∈ Item.attributesAll items, (names.attributeText? a.1).isSome := by
  induction h with
  | nil =>
    intro a ha
    cases ha
  | @mark m m' rest rest' hm _ ih =>
    intro a ha
    rcases List.mem_append.1 ha with ha | ha
    · cases hm with
      | text value | raw value | doctype => cases ha
      | valued value hname | boolean hname =>
        obtain ⟨text, ht, _⟩ := hname
        cases List.mem_singleton.1 ha
        exact Option.isSome_iff_exists.2 ⟨text, ht⟩
    · exact ih a ha
  | element _ _ _ _ ih => exact ih
  | fragment _ _ ih₁ ih₂ =>
    intro a ha
    exact (List.mem_append.1 ha).elim (ih₁ a) (ih₂ a)

theorem attributes_isSome' (h : Item.Alike names names' items items') :
    ∀ a ∈ Item.attributesAll items', (names'.attributeText? a.1).isSome := by
  intro a ha
  have hmem := List.mem_map_of_mem (f := fun a => (names'.attributeText? a.1, a.2)) ha
  rw [← h.attributes_eq] at hmem
  obtain ⟨b, hb, heq⟩ := List.mem_map.1 hmem
  have hsome := h.attributes_isSome b hb
  rwa [(Prod.mk.inj heq).1] at hsome

theorem isEmpty_treesAll (h : Item.Alike names names' items items') :
    (Item.treesAll items).isEmpty = (Item.treesAll items').isEmpty := by
  induction h with
  | nil => rfl
  | mark hm _ ih =>
    cases hm with
    | text value | raw value | doctype => rfl
    | valued value hname | boolean hname => exact ih
  | element _ _ _ _ _ => rfl
  | fragment _ _ ih₁ ih₂ =>
    rw [Item.treesAll, Item.treesAll, Item.trees, Item.trees, isEmpty_append, isEmpty_append, ih₁,
      ih₂]

end Item.Alike

/-! ### Attributes by their texts -/

theorem eraseDups_map {α β : Type} [BEq α] [LawfulBEq α] [BEq β] [LawfulBEq β] (f : α → β) :
    ∀ as : List α, (∀ a ∈ as, ∀ b ∈ as, f a = f b → a = b) →
      (as.map f).eraseDups = as.eraseDups.map f
  | [], _ => rfl
  | a :: as, h => by
    have hrest := eraseDups_map f (as.filter fun b => !b == a) fun b hb c hc =>
      h b (List.mem_cons_of_mem a (List.mem_filter.1 hb).1) c
        (List.mem_cons_of_mem a (List.mem_filter.1 hc).1)
    have hfilter : (as.map f).filter (fun b => !b == f a) = (as.filter fun b => !b == a).map f := by
      rw [List.filter_map]
      refine congrArg (List.map f) (List.filter_congr fun b hb => ?_)
      rw [Function.comp_apply]
      by_cases hab : b = a
      · rw [hab, beq_self_eq_true, beq_self_eq_true]
      · have hne : f b ≠ f a := fun heq =>
          hab (h b (List.mem_cons_of_mem a hb) a List.mem_cons_self heq)
        rw [beq_false_of_ne hab, beq_false_of_ne hne]
    rw [List.map_cons, List.eraseDups_cons, List.eraseDups_cons, List.map_cons, hfilter, hrest]
termination_by as => as.length
decreasing_by
  rw [List.length_cons]
  exact Nat.lt_succ_of_le (List.length_filter_le _ _)

/-- The events of attributes that are gathered by their texts. -/
def Group.eventsByText (attributes : List (Option String × Option String)) : List Event :=
  (attributes.map Prod.fst).eraseDups.flatMap fun text =>
    .attributeName (text.getD "") ::
      Event.ofValues (valuesOf text attributes)

/-- **Attributes could as well be gathered by their texts.** -/
theorem Group.events_gather {names : Names} (h : names.Sound)
    {attributes : List (AttributeName × Option String)}
    (hknown : ∀ a ∈ attributes, (names.attributeText? a.1).isSome) :
    (Group.gather attributes).flatMap (Group.events names) =
      Group.eventsByText (attributes.map fun a => (names.attributeText? a.1, a.2)) := by
  have hinj : ∀ a ∈ attributes.map Prod.fst, ∀ b ∈ attributes.map Prod.fst,
      names.attributeText? a = names.attributeText? b → a = b := by
    intro a ha b hb heq
    obtain ⟨p, hp, rfl⟩ := List.mem_map.1 ha
    obtain ⟨text, ht⟩ := Option.isSome_iff_exists.1 (hknown p hp)
    exact h.attribute_inj ht (heq ▸ ht)
  have hnames : (attributes.map fun a => (names.attributeText? a.1, a.2)).map Prod.fst =
      (attributes.map Prod.fst).map names.attributeText? := by
    rw [List.map_map, List.map_map]
    rfl
  rw [Group.eventsByText, hnames, eraseDups_map _ _ hinj, Group.gather, List.flatMap_map,
    List.flatMap_map]
  refine List.flatMap_congr fun name hname => ?_
  have hvalues : valuesOf (names.attributeText? name)
      (attributes.map fun a => (names.attributeText? a.1, a.2)) = valuesOf name attributes := by
    rw [valuesOf, List.filterMap_map]
    refine List.filterMap_congr fun a ha => ?_
    rw [Function.comp_apply]
    by_cases heq : a.1 = name
    · rw [if_pos heq, if_pos (congrArg names.attributeText? heq)]
    · rw [if_neg heq, if_neg fun ht =>
        heq (hinj a.1 (List.mem_map_of_mem ha) name (List.mem_eraseDups.1 hname) ht)]
  rw [hvalues]
  rfl

/-! ### Trees -/

theorem Tree.eventsAll_append (names : Names) (as bs : List (Tree String)) :
    Tree.eventsAll names (as ++ bs) = Tree.eventsAll names as ++ Tree.eventsAll names bs := by
  induction as with
  | nil => rfl
  | cons a as ih => rw [List.cons_append, Tree.eventsAll, ih, Tree.eventsAll, List.append_assoc]

theorem Tree.eventsAll_singleton (names : Names) (tree : Tree String) :
    Tree.eventsAll names [tree] = tree.events names := List.append_nil _

/-- **Items that are alike are read aloud alike.** -/
theorem Item.Alike.events_eq {names names' : Names} (hcovers : names.Covers names')
    {items items' : List (Item String)} (h : Item.Alike names names' items items') :
    Tree.eventsAll names (Item.treesAll items) = Tree.eventsAll names' (Item.treesAll items') := by
  induction h with
  | nil => rfl
  | mark hm _ ih =>
    rw [Item.treesAll, Item.treesAll, Tree.eventsAll_append, Tree.eventsAll_append, ih]
    cases hm <;> rfl
  | @element name name' items items' rest rest' hname hitems _ ih₁ ih₂ =>
    have hgroups : (Group.gather (Item.attributesAll items)).flatMap (Group.events names) =
        (Group.gather (Item.attributesAll items')).flatMap (Group.events names') := by
      rw [Group.events_gather hcovers.sound hitems.attributes_isSome, hitems.attributes_eq,
        Group.events_gather hcovers.sound' hitems.attributes_isSome']
    have hkind := hname.kind_eq hcovers
    have htag : names.tag name = names'.tag name' := by
      obtain ⟨text, ht, ht'⟩ := hname
      rw [Names.tag, Names.tag, ht, ht']
    rw [Item.treesAll, Item.treesAll, Tree.eventsAll_append, Tree.eventsAll_append, ih₂,
      Item.trees, Item.trees, Tree.eventsAll_singleton, Tree.eventsAll_singleton, Tree.events,
      Tree.events, hgroups, hkind, htag, ih₁, hitems.isEmpty_treesAll]
  | fragment _ _ ih₁ ih₂ =>
    rw [Item.treesAll, Item.treesAll, Tree.eventsAll_append, Tree.eventsAll_append, ih₂,
      Item.trees, Item.trees, ih₁]

/-! ### Drafts -/

/-- The scopes are of the same name, if they are elements. -/
inductive Scope.Alike (names names' : Names) : Scope → Scope → Prop where
  | root : Alike names names' .root .root
  | element {name name' : ElementName} : names.SameElement names' name name' →
    Alike names names' (.element name) (.element name')
  | fragment : Alike names names' .fragment .fragment

theorem Scope.Alike.mono {names names' wider wider' : Names} {scope scope' : Scope}
    (h : Scope.Alike names names' scope scope') (hn : names.Extends wider)
    (hn' : names'.Extends wider') : Scope.Alike wider wider' scope scope' := by
  cases h with
  | root => exact .root
  | element hname => exact .element (hname.mono hn hn')
  | fragment => exact .fragment

/-- The levels differ by the codes of the same names alone. -/
structure Sheet.Alike (names names' : Names) (sheet sheet' : Sheet String) : Prop where
  scope : Scope.Alike names names' sheet.scope sheet'.scope
  items : Item.Alike names names' sheet.items sheet'.items

namespace Sheet.Alike

variable {names names' : Names} {sheet sheet' : Sheet String}

theorem mono {wider wider' : Names} (h : sheet.Alike names names' sheet')
    (hn : names.Extends wider) (hn' : names'.Extends wider') : sheet.Alike wider wider' sheet' :=
  ⟨h.scope.mono hn hn', h.items.mono hn hn'⟩

theorem add (h : sheet.Alike names names' sheet') {item item' : Item String}
    (hitem : Item.Alike names names' [item] [item']) :
    (sheet.add item).Alike names names' (sheet'.add item') :=
  ⟨h.scope, h.items.append hitem⟩

theorem keep (h : sheet.Alike names names' sheet') (count : Nat) :
    (sheet.keep count).Alike names names' (sheet'.keep count) := by
  refine ⟨h.scope, ?_⟩
  rw [Sheet.keep, Sheet.keep, h.items.length_eq]
  exact h.items.take _

theorem taken (h : sheet.Alike names names' sheet') (count : Nat) :
    Item.Alike names names' (sheet.taken count) (sheet'.taken count) := by
  rw [Sheet.taken, Sheet.taken, h.items.length_eq]
  exact h.items.drop _

end Sheet.Alike

namespace Draft

/-- The first draft knows all names of the second one, and their levels differ by the codes of the
same names alone. -/
structure Alike (m m' : Draft String) : Prop where
  names : m.names.Covers m'.names
  current : m.current.Alike m.names m'.names m'.current
  outer : List.Forall₂ (Sheet.Alike m.names m'.names) m.outer m'.outer

/-- Both calls are out of place, or both are followed by drafts that are alike. -/
inductive StepsAlike : Option (Draft String) → Option (Draft String) → Prop where
  | none : StepsAlike none none
  | some {m m' : Draft String} : m.Alike m' → StepsAlike (some m) (some m')

theorem alike_new : Alike new new where
  names := (Names.Extends.refl _).covers Names.sound_standard Names.sound_standard
  current := ⟨.root, .nil⟩
  outer := .nil

namespace Alike

variable {m m' : Draft String}

theorem addNames (h : m.Alike m') {names names' : Names} (hcovers : names.Covers names')
    (hn : m.names.Extends names) (hn' : m'.names.Extends names') :
    Alike { m with names } { m' with names := names' } :=
  ⟨hcovers, h.current.mono hn hn', h.outer.imp fun _ _ h => h.mono hn hn'⟩

theorem add (h : m.Alike m') {mark mark' : Mark String}
    (hmark : mark.Alike m.names m'.names mark') :
    StepsAlike (some (m.add (.mark mark))) (some (m'.add (.mark mark'))) :=
  .some ⟨h.names, h.current.add (.mark hmark .nil), h.outer⟩

theorem enter (h : m.Alike m') {scope scope' : Scope}
    (hscope : Scope.Alike m.names m'.names scope scope') {first first' : List (Item String)}
    (hfirst : Item.Alike m.names m'.names first first') (count : Nat) :
    StepsAlike (m.enter scope first count) (m'.enter scope' first' count) := by
  rw [Draft.enter, Draft.enter, h.current.items.length_eq]
  split
  · exact .none
  · exact .some ⟨h.names, ⟨hscope, hfirst.append (h.current.taken count)⟩,
      .cons (h.current.keep count) h.outer⟩

theorem closeElement (h : m.Alike m') : StepsAlike m.closeElement m'.closeElement := by
  obtain ⟨⟨scope, items⟩, outer, names⟩ := m
  obtain ⟨⟨scope', items'⟩, outer', names'⟩ := m'
  obtain ⟨hnames, ⟨hscope, hitems⟩, houter⟩ := h
  simp only at hnames hscope hitems houter
  cases hscope with
  | root => exact .none
  | fragment => exact .none
  | element hname =>
    cases houter with
    | nil => exact .none
    | cons hparent houter =>
      exact .some ⟨hnames, hparent.add (.element hname hitems .nil), houter⟩

theorem endFragment (h : m.Alike m') : StepsAlike m.endFragment m'.endFragment := by
  obtain ⟨⟨scope, items⟩, outer, names⟩ := m
  obtain ⟨⟨scope', items'⟩, outer', names'⟩ := m'
  obtain ⟨hnames, ⟨hscope, hitems⟩, houter⟩ := h
  simp only at hnames hscope hitems houter
  cases hscope with
  | root => exact .none
  | element hname => exact .none
  | fragment =>
    cases houter with
    | nil => exact .none
    | cons hparent houter => exact .some ⟨hnames, hparent.add (.fragment hitems .nil), houter⟩

theorem abortFragment (h : m.Alike m') : StepsAlike m.abortFragment m'.abortFragment := by
  obtain ⟨⟨scope, items⟩, outer, names⟩ := m
  obtain ⟨⟨scope', items'⟩, outer', names'⟩ := m'
  obtain ⟨hnames, ⟨hscope, hitems⟩, houter⟩ := h
  simp only at hnames hscope hitems houter
  cases hscope with
  | root => exact .none
  | element hname => exact .none
  | fragment =>
    cases houter with
    | nil => exact .none
    | cons hparent houter => exact .some ⟨hnames, hparent, houter⟩

theorem prepared {names names' : Names} {prepared prepared' : List (AttributeName × String)}
    (h : List.Forall₂ (fun p p' => names.SameAttribute names' p.1 p'.1 ∧ p.2 = p'.2)
      prepared prepared') :
    Item.Alike names names' (prepared.map fun p => .mark (.valued p.1 p.2))
      (prepared'.map fun p => .mark (.valued p.1 p.2)) := by
  induction h with
  | nil => exact .nil
  | cons hp _ ih =>
    obtain ⟨hname, hvalue⟩ := hp
    rw [List.map_cons, List.map_cons, hvalue]
    exact .mark (.valued _ hname) ih

/-- **Calls that are alike leave drafts alike.** -/
theorem step (h : m.Alike m') {c c' : Call ElementName AttributeName}
    (hc : m.names.SameCall m'.names c c') : StepsAlike (m.step c) (m'.step c') := by
  cases hc with
  | text value => exact h.add (.text value)
  | raw value => exact h.add (.raw value)
  | doctype => exact h.add .doctype
  | valued value hname => exact h.add (.valued value hname)
  | boolean hname => exact h.add (.boolean hname)
  | openElement hname => exact h.enter (.element hname) .nil 0
  | openWith args hname hprepared => exact h.enter (.element hname) (prepared hprepared) _
  | adopt count hname => exact h.enter (.element hname) .nil count
  | closeElement => exact h.closeElement
  | beginFragment => exact h.enter .fragment .nil 0
  | fragment args =>
    have hinner := h.enter .fragment .nil (claimed args)
    rw [Draft.step, Draft.step]
    cases hr : m.enter .fragment [] (claimed args) <;>
      cases hr' : m'.enter .fragment [] (claimed args) <;> rw [hr, hr'] at hinner <;>
      cases hinner
    · exact .none
    · rename_i hinner
      exact hinner.endFragment
  | endFragment => exact h.endFragment
  | abortFragment => exact h.abortFragment
  | finish =>
    have houter : m.outer.isEmpty = m'.outer.isEmpty := by
      rw [Bool.eq_iff_iff, List.isEmpty_iff_length_eq_zero, List.isEmpty_iff_length_eq_zero,
        h.outer.length_eq]
    rw [Draft.step, Draft.step, houter]
    split
    · exact .some alike_new
    · exact .none
  | reset => exact .some alike_new
  | nextId => exact .some h
  | internElement hname => exact .some h
  | internAttribute hname => exact .some h

/-- **Requests that are alike leave drafts alike**, unless the first draft has no code left for a
name. -/
theorem request (h : m.Alike m') {c c' : SpelledCall} (hc : m.names.SameRequest m'.names c c')
    (hroom : ∀ r, (Lookup.call c).run { Recorder.new with names := m.names } ≠
      (.error .outOfCodes, r)) : StepsAlike (m.request c) (m'.request c') := by
  have hends := Lookup.call_twin hc { Recorder.new with names := m.names }
    { Recorder.new with names := m'.names } (.refl _) (.refl _) h.names
  rw [Draft.request, Draft.request]
  cases hrun : (Lookup.call c).run { Recorder.new with names := m.names } with
  | mk result r =>
    cases hrun' : (Lookup.call c').run { Recorder.new with names := m'.names } with
    | mk result' r' =>
      rw [hrun, hrun'] at hends
      rw [hrun] at hroom
      cases hends with
      | found hcovers hn hn' hcall => exact (h.addNames hcovers hn hn').step hcall
      | refused e hcovers hn hn' => exact .some (h.addNames hcovers hn hn')
      | full => exact absurd rfl (hroom r)

/-- The trees of drafts that are alike are read aloud alike. -/
theorem events_eq (h : m.Alike m') :
    Tree.eventsAll m.names m.trees = Tree.eventsAll m'.names m'.trees :=
  h.current.items.events_eq h.names

end Alike

end Draft

end HtmlTape
