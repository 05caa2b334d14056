import HtmlTape.Proofs.Recorder.Added

/-!
# What is granted

Which calls a recorder grants, told exactly: `Outcome.Grants x p post` says that there is a result
if and only if `p` holds, and that the result has the property `post`.  Leaves, elements and
fragments are granted by what is to be recorded and by the names alone, and what they record has its
texts one after another (`Recorder.Records`).
-/

namespace HtmlTape

/-! ### Outcomes -/

/-- There is a result exactly if `p` holds, and the result has the property. -/
structure Outcome.Grants {α : Type} (x : Except Fault α) (p : Prop) (post : α → Prop) : Prop where
  granted : p → ∃ a, x = .ok a
  sound : ∀ a, x = .ok a → p ∧ post a

namespace Outcome.Grants

variable {α β : Type} {x : Except Fault α} {p q : Prop} {post : α → Prop}

theorem ok {a : α} (h : post a) : Grants (.ok a) True post :=
  ⟨fun _ => ⟨a, rfl⟩, by rintro _ ⟨⟩; exact ⟨trivial, h⟩⟩

theorem bind {f : α → Except Fault β} {post' : β → Prop} (hx : Grants x p post)
    (hf : ∀ a, post a → Grants (f a) q post') : Grants (x >>= f) (p ∧ q) post' := by
  constructor
  · rintro ⟨hp, hq⟩
    obtain ⟨a, ha⟩ := hx.granted hp
    rw [ha]
    exact (hf a (hx.sound a ha).2).granted hq
  · intro b hb
    obtain ⟨a, ha, hb⟩ := of_bind_eq_ok hb
    obtain ⟨hp, ha⟩ := hx.sound a ha
    obtain ⟨hq, hb⟩ := (hf a ha).sound b hb
    exact ⟨⟨hp, hq⟩, hb⟩

theorem map {f : α → β} {post' : β → Prop} (hx : Grants x p fun a => post' (f a)) :
    Grants (x.map f) p post' := by
  constructor
  · intro hp
    obtain ⟨a, ha⟩ := hx.granted hp
    exact ⟨f a, by rw [ha]; rfl⟩
  · intro b hb
    obtain ⟨a, ha, rfl⟩ := of_map_eq_ok hb
    exact hx.sound a ha

theorem imp {post' : α → Prop} (hx : Grants x p post) (hp : p ↔ q)
    (hpost : ∀ a, post a → post' a) : Grants x q post' :=
  ⟨fun hq => hx.granted (hp.2 hq), fun a ha => (hx.sound a ha).imp hp.1 (hpost a)⟩

end Outcome.Grants

open Outcome (Grants)

/-! ### Leaves by their marks -/

def Mark.Known (names : Names) : Mark String → Prop
  | valued name _ | boolean name => (names.attributeText? name).isSome
  | text _ | raw _ | doctype => True

def Mark.call : Mark String → Call ElementName AttributeName
  | text value => .text value
  | raw value => .raw value
  | doctype => .doctype
  | valued name value => .valued name value
  | boolean name => .boolean name

namespace Recorder

variable {r r₁ r₂ r' : Recorder} {m : Draft Quote} {records records' : List Nat}
  {items items' : List (Item String)} {scope : Scope}

/-! ### Recording items -/

/-- From `r`, which mirrors `m`, to `r'`, the items were recorded, with their texts one after
another; their entries stand at `records`. -/
structure Records (r : Recorder) (m : Draft Quote) (r' : Recorder) (records : List Nat)
    (items : List (Item String)) : Prop where
  names : r'.names = r.names
  adds : r.Adds m r' records (Item.placeAll r.current.poolHere items) (Item.textAll items)

theorem Records.refl (h : r.Mirrors m) : r.Records m r [] [] := ⟨rfl, .refl h⟩

theorem Records.append (h : r.Records m r₁ records items)
    (h' : r₁.Records (m.append (Item.placeAll r.current.poolHere items) r₁.names) r' records'
      items') : r.Records m r' (records ++ records') (items ++ items') := by
  refine ⟨h'.names.trans h.names, ?_⟩
  rw [Item.placeAll_append, Item.textAll_append, ← h.adds.poolHere]
  exact h.adds.trans h'.adds

theorem forall_expandedAll_placeAll (offset : Nat) (items : List (Item String)) (p : Bool → Prop) :
    (∀ item ∈ Item.expandedAll (Item.placeAll offset items), p item.isAttribute) ↔
      ∀ item ∈ Item.expandedAll items, p item.isAttribute := by
  have hitems := congrArg Item.expandedAll (Item.mapAll_placeAll items offset)
  rw [Item.expandedAll_mapAll, Item.mapAll_eq_map] at hitems
  rw [← hitems, List.forall_mem_map]
  simp only [Item.isAttribute_map]

/-! ### What single calls grant -/

def recordMark (r : Recorder) : Mark String → Except Fault (Nat × Recorder)
  | .text value => .ok (r.text value)
  | .raw value => .ok (r.raw value)
  | .doctype => .ok r.doctype
  | .valued name value => r.valuedAttribute name value
  | .boolean name => r.booleanAttribute name

theorem step_markCall (r : Recorder) (mark : Mark String) :
    r.step mark.call = (r.recordMark mark).map Answer.ofRecord := by
  cases mark <;> rfl

theorem grants_attributeText (names : Names) (name : AttributeName) :
    Grants (names.attributeText name) (names.attributeText? name).isSome
      fun _ => (names.attributeText? name).isSome := by
  refine ⟨fun h => ⟨_, Names.attributeText_eq h⟩, fun _ h => ?_⟩
  have hname := Names.isSome_of_attributeText h
  exact ⟨hname, hname⟩

theorem exists_enterElement {name : ElementName} (hname : (r.names.elementText? name).isSome)
    (level : Level) (entries : Array Entry) : ∃ s, r.enterElement name level entries = .ok s := by
  rw [enterElement, Names.elementText_eq hname]
  exact ⟨_, rfl⟩

/-- The recorders differ by their counters alone. -/
def SameLevels (s r : Recorder) : Prop :=
  s.current = r.current ∧ s.outer = r.outer ∧ s.names = r.names

theorem records_putLeaf (h : r.Mirrors m) {s : Recorder} (hs : s.SameLevels r)
    (mark : Mark String) {leaf : Literal → Leaf} {text : String}
    (hleaf : ∀ o, leaf ⟨o, text.utf8ByteSize⟩ = (mark.at o).quoted)
    (htext : text = mark.value?.getD "") (hknown : mark.Known r.names) :
    r.Records m (s.putLeaf leaf text).2 [(s.putLeaf leaf text).1] [.mark mark] := by
  obtain ⟨hcurrent, houter, hnames⟩ := hs
  have hknown' : ∀ o, (Block.leaf (mark.at o).quoted).Known r.names := by
    intro o
    cases mark <;> exact hknown
  have hadds := Adds.putLeaf h mark hleaf htext hknown'
  refine ⟨hnames, ?_⟩
  rw [Item.textAll, Item.textAll, Item.text, String.append_empty, ← htext, putLeaf, hcurrent]
  exact hadds.congr rfl houter (hnames ▸ .refl _)

theorem grants_recordMark (h : r.Mirrors m) (mark : Mark String) :
    Grants (r.recordMark mark) (mark.Known r.names) fun p =>
      r.Records m p.2 [p.1] [.mark mark] := by
  have hsame : r.SameLevels r := ⟨rfl, rfl, rfl⟩
  have htext : r.countText.SameLevels r := ⟨rfl, rfl, rfl⟩
  have hattribute : r.countAttribute.SameLevels r := ⟨rfl, rfl, rfl⟩
  cases mark with
  | text value => exact .ok (records_putLeaf h htext (.text value) (fun _ => rfl) rfl trivial)
  | raw value => exact .ok (records_putLeaf h htext (.raw value) (fun _ => rfl) rfl trivial)
  | doctype => exact .ok (records_putLeaf h hsame .doctype (fun _ => rfl) rfl trivial)
  | valued name value =>
    refine Grants.imp ((grants_attributeText r.names name).bind fun _ hname => ?_)
      (Iff.of_eq (and_true _)) fun _ h => h
    exact .ok (records_putLeaf h hattribute (.valued name value) (fun _ => rfl) rfl hname)
  | boolean name =>
    refine Grants.imp ((grants_attributeText r.names name).bind fun _ hname => ?_)
      (Iff.of_eq (and_true _)) fun _ h => h
    exact .ok (records_putLeaf h hattribute (.boolean name) (fun _ => rfl) rfl hname)

/-! ### Levels with recorded items -/

/-- On `r`, which mirrors `m`, a level stands open that holds the items.  Their texts come one after
another, whether they were recorded before the level was opened or inside of it. -/
structure Opened (r : Recorder) (m : Draft Quote) (r₁ : Recorder) (scope : Scope)
    (items : List (Item String)) : Prop where
  names : r₁.names = r.names
  inside : ∃ before text, before ++ text = Item.textAll items ∧
    r.Inside m before r₁ scope (Item.placeAll r.current.poolHere items) text

theorem grants_openElement (h : r.Mirrors m) (name : ElementName) :
    Grants (r.openElement name) (r.names.elementText? name).isSome fun r₁ =>
      r.Opened m r₁ (.element name) [] := by
  refine ⟨fun hname => ?_, fun r₁ hr => ?_⟩
  · rw [openElement]
    exact exists_enterElement hname _ _
  · have hinside := inside_openElement h hr
    obtain ⟨hname, rfl⟩ := openElement_eq_ok hr
    exact ⟨hname, rfl, "", "", rfl, hinside⟩

theorem opened_beginFragment (h : r.Mirrors m) : r.Opened m r.beginFragment .fragment [] :=
  ⟨rfl, "", "", rfl, inside_beginFragment h⟩

theorem Opened.mirrors (h : r.Opened m r₁ scope items) :
    r₁.Mirrors ⟨⟨scope, Item.placeAll r.current.poolHere items⟩, m.current :: m.outer,
      r₁.names⟩ := by
  obtain ⟨_, _, _, hinside⟩ := h.inside
  exact hinside.mirrors

/-- Items that are recorded on the open level are held by it. -/
theorem Opened.record (h : r.Opened m r₁ scope items)
    (h' : r₁.Records ⟨⟨scope, Item.placeAll r.current.poolHere items⟩, m.current :: m.outer,
      r₁.names⟩ r₂ records items') : r.Opened m r₂ scope (items ++ items') := by
  obtain ⟨before, text, htext, hinside⟩ := h.inside
  refine ⟨h'.names.trans h.names, before, text ++ Item.textAll items', ?_, ?_⟩
  · rw [Item.textAll_append, ← htext, String.append_assoc]
  · have hadd := hinside.add h'.adds
    rw [hinside.poolHere, htext] at hadd
    rw [Item.placeAll_append]
    exact hadd

theorem Records.grants_adopt (h : r.Records m r₁ records items) (name : ElementName) :
    Grants (r₁.adopt name items.length) (r.names.elementText? name).isSome fun r₂ =>
      r.Opened m r₂ (.element name) items := by
  have hlength : records.length = items.length := by
    rw [h.adds.length_eq, Item.length_placeAll]
  rw [← h.names, ← hlength]
  refine ⟨fun hname => ?_, fun r₂ hr => ?_⟩
  · rw [adopt, Level.adopt, if_neg (Nat.not_lt.2 h.adds.le_size)]
    exact exists_enterElement hname _ _
  · have hinside := h.adds.adopt hr
    obtain ⟨_, hname, rfl⟩ := adopt_eq_ok hr
    exact ⟨hname, h.names, _, "", String.append_empty, hinside⟩

theorem Records.grants_openElementWith (h : r.Records m r₁ records items) (name : ElementName)
    {args : List Token} (hargs : args.filterMap Token.record? = records) :
    Grants (r₁.openElementWith name [] args) (r.names.elementText? name).isSome fun r₂ =>
      r.Opened m r₂ (.element name) items := by
  rw [← h.names]
  refine ⟨fun hname => ?_, fun r₂ hr => ?_⟩
  · rw [openElementWith, h.adds.claim hargs]
    obtain ⟨s, hs⟩ := exists_enterElement hname (r₁.current.split records.length).1 #[]
    show ∃ a, Except.bind (r₁.enterElement name (r₁.current.split records.length).1 #[]) _ = .ok a
    rw [hs]
    exact ⟨_, rfl⟩
  · have hinside := h.adds.openElementWith hargs hr
    obtain ⟨_, hname, s, hfold, hs⟩ := openElementWith_eq_ok hr
    cases hfold
    refine ⟨hname, ?_, _, "", String.append_empty, hinside⟩
    rw [hs]
    exact h.names

theorem Opened.grants_closeElement {name : ElementName}
    (h : r.Opened m r₁ (.element name) items) :
    Grants r₁.closeElement
      (name.kind.isVoid → ∀ item ∈ Item.expandedAll items, item.isAttribute)
      fun p => r.Records m p.2 [p.1] [.element name items] := by
  obtain ⟨before, text, htext, hinside⟩ := h.inside
  have hiff := hinside.closeElement_iff
  rw [forall_expandedAll_placeAll _ _ (· = true)] at hiff
  refine ⟨hiff.2, fun p hp => ⟨hiff.1 ⟨p, hp⟩, ?_, ?_⟩⟩
  · obtain ⟨_, _, _, _, _, _, _, _, _, hnames⟩ := closeElement_eq_ok hp
    exact hnames.trans h.names
  · have hadds := hinside.closeElement hp
    rw [htext, ← String.append_empty (s := Item.textAll items)] at hadds
    exact hadds

theorem Opened.grants_endFragment (h : r.Opened m r₁ .fragment items) :
    Grants r₁.endFragment True fun p => r.Records m p.2 [p.1] [.fragment items] := by
  obtain ⟨before, text, htext, hinside⟩ := h.inside
  refine ⟨fun _ => hinside.exists_endFragment, fun p hp => ⟨trivial, ?_, ?_⟩⟩
  · obtain ⟨_, _, _, _, _, _, _, hnames⟩ := endFragment_eq_ok hp
    exact hnames.trans h.names
  · have hadds := hinside.endFragment hp
    rw [htext, ← String.append_empty (s := Item.textAll items)] at hadds
    exact hadds

theorem Records.grants_fragment (h : r.Records m r₁ records items) {args : List Token}
    (hargs : args.filterMap Token.record? = records) :
    Grants (r₁.fragment args) True fun p => r.Records m p.2 [p.1] [.fragment items] := by
  have hinside := h.adds.enter (by simp : Scope.fragment ≠ .root) (by simp)
  have hopened : r.Opened m (r₁.enter .fragment (r₁.current.split records.length).1
      (r₁.current.split records.length).2) .fragment items :=
    ⟨h.names, _, "", String.append_empty, hinside⟩
  rw [fragment, h.adds.claim hargs]
  exact hopened.grants_endFragment

end Recorder

end HtmlTape
