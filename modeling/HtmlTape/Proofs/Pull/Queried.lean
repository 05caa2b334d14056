import HtmlTape.Proofs.Pull.Toured
import HtmlTape.Pull.Query
import Mathlib.Data.List.Nodup

/-!
# Queries answer what the trees say

The visitor of a query does the same at every node, whatever the traversal is like
(`Visitor.Acts`), so the walk of a query goes through the listing of the trees, and what it gathers
is a fold over the listing (`Visitor.Acts.walkWith`).

The element that is found by its id was the last one that the walk has read, and nothing was asked
of it (`Document.JustRead.ownerFrame`); so it can still be asked for its children, and a second walk
starts from there.  That walk does not touch the lists around it, so the element cannot be asked
again.  Together, the answers to all queries are those that the trees give
(`Recording.queries_of_madeBy`).
-/

namespace HtmlTape

variable {σ : Type} {d : Document}

/-! ### What the trees answer -/

namespace Tree

variable {τ : Type}

def name? : Tree τ → Option ElementName
  | .element name _ _ => some name
  | .doctype | .text _ | .raw _ => none

def groups : Tree τ → List (Group τ)
  | .element _ groups _ => groups
  | .doctype | .text _ | .raw _ => []

def group? (name : AttributeName) (tree : Tree τ) : Option (Group τ) :=
  tree.groups.find? fun g => g.name = name

/-- The first value of the attribute `id`. -/
def firstId? (tree : Tree Quote) : Option String :=
  (tree.group? .id).bind fun g => (g.values.map Quote.text).head?

def valuesOf (element : ElementName) (name : AttributeName) (tree : Tree Quote) : List String :=
  if tree.name? = some element then
    (tree.group? name).elim [] fun g => g.values.map Quote.text
  else []

def ownText : Tree Quote → String
  | .text q => q.text
  | .doctype | .raw _ | .element .. => ""

mutual

/-- The text in a tree, without raw markup. -/
def plainText : Tree Quote → String
  | .text q => q.text
  | .doctype | .raw _ => ""
  | .element _ _ children => plainTextAll children

def plainTextAll : List (Tree Quote) → String
  | [] => ""
  | tree :: rest => tree.plainText ++ plainTextAll rest

end

theorem plainText_eq (tree : Tree Quote) :
    tree.plainText = tree.ownText ++ plainTextAll tree.children := by
  cases tree with
  | text q => exact String.append_empty.symm
  | doctype | raw q => rfl
  | element name groups children => exact String.empty_append.symm

theorem foldl_ownText (trees : List (Tree Quote)) : ∀ (depth start : Nat) (text : String),
    (spotsAll depth start trees).foldl (fun text spot => text ++ spot.tree.ownText) text =
      text ++ plainTextAll trees := by
  induction trees using children_induction with
  | nil => exact fun _ _ _ => String.append_empty.symm
  | cons tree rest ih₁ ih₂ =>
    intro depth start text
    rw [spotsAll_cons, List.foldl_cons, List.foldl_append, ih₁, ih₂, plainTextAll, plainText_eq,
      String.append_assoc, String.append_assoc, String.append_assoc]

end Tree

/-! ### Elements that can be asked -/

/-- **An element that was just read** can be asked for everything. -/
theorem Document.JustRead.ownerFrame {c : Cursor} {nodes : Nodes} {spot : Spot}
    (h : d.JustRead c nodes spot) (he : spot.tree.isElement) :
    ∃ frame, c.ownerFrame ⟨nodes, spot.offset⟩ = .ok frame ∧ frame.stage = .fresh := by
  obtain ⟨depth, offset, tree⟩ := spot
  obtain ⟨⟨c₀, hnext⟩, hsound, hhas⟩ := h
  obtain ⟨frame, hframe, hrest⟩ := of_bind_eq_ok hnext
  obtain ⟨⟨node, frame'⟩, hread, hrest⟩ := of_bind_eq_ok hrest
  cases tree with
  | doctype | text q | raw q => cases he
  | element name groups children =>
    cases hrest
    rw [Frame.next] at hread
    by_cases hend : frame.stop ≤ frame.pc
    · rw [if_pos hend] at hread
      cases hread
    · rw [if_neg hend] at hread
      have hid := (Cursor.frame_eq_ok_iff.1 hframe).2
      split at hread
      · cases hread
      · obtain ⟨_, _, heq⟩ := of_map_eq_ok hread
        cases heq
      · obtain ⟨_, _, heq⟩ := of_map_eq_ok hread
        cases heq
      · rename_i span _
        cases hread
        have hread : Frame.id { frame with
            pc := frame.pc + span, current := some frame.pc, stage := .fresh } = nodes.id := hid
        exact ⟨_, ((Cursor.at_of_frame hframe).withFrame hread).ownerFrame rfl, rfl⟩
      · cases hread

/-! ### Attributes of an element -/

section Attributes

variable {c : Cursor} {e : Element} {frame : Frame} {tree : Tree Quote}

theorem Element.groups_of_has (he : tree.isElement) (hhas : d.Has e.start tree.instructions) :
    e.groups d = tree.groups.map Group.attribute := by
  cases tree with
  | doctype | text q | raw q => cases he
  | element name groups children =>
    rw [Tree.instructions] at hhas
    exact Element.groups_eq hhas

theorem Element.name_of_has (he : tree.isElement) (hhas : d.Has e.start tree.instructions) :
    tree.name? = some (e.name d) := by
  cases tree with
  | doctype | text q | raw q => cases he
  | element name groups children =>
    rw [Tree.instructions] at hhas
    exact congrArg some (Element.name_eq hhas).symm

/-- **Looking for an attribute** of an element that can be asked. -/
theorem Cursor.findAttribute_eq (he : tree.isElement) (hhas : d.Has e.start tree.instructions)
    (hframe : c.ownerFrame e = .ok frame) (name : AttributeName) :
    c.findAttribute d e name = .ok ((tree.group? name).map Group.attribute) := by
  rw [findAttribute, hframe, Element.groups_of_has he hhas, Tree.group?]
  exact congrArg Except.ok (List.find?_map ..)

theorem Tree.Sound.group {names : Names} {pool : String} (h : tree.Sound names pool)
    {name : AttributeName} {g : Group Quote} (hg : tree.group? name = some g) :
    g.Sound names pool := by
  have hmem := List.mem_of_find?_eq_some hg
  cases tree with
  | doctype | text q | raw q => cases hmem
  | element _ _ _ => exact h.2.2.1 g hmem

theorem Document.idOf_eq (he : tree.isElement) (hsound : tree.Sound d.names d.pool)
    (hhas : d.Has e.start tree.instructions) (hframe : c.ownerFrame e = .ok frame) :
    d.idOf c e = .ok tree.firstId? := by
  rw [idOf, Cursor.findAttribute_eq he hhas hframe, Tree.firstId?]
  cases hg : tree.group? .id with
  | none => rfl
  | some g =>
    obtain ⟨_, hvalues⟩ := hsound.group hg
    obtain ⟨name, values⟩ := g
    cases values with
    | nil => rfl
    | cons q values =>
      show Except.bind (d.literal q.literal) _ = _
      rw [literal_eq_ok (hvalues q List.mem_cons_self)]
      rfl

theorem Document.valuesOf_eq (he : tree.isElement) (hsound : tree.Sound d.names d.pool)
    (hhas : d.Has e.start tree.instructions) (hframe : c.ownerFrame e = .ok frame)
    (name : AttributeName) :
    d.valuesOf c e name =
      .ok ((tree.group? name).elim [] fun g => g.values.map Quote.text) := by
  rw [valuesOf, Cursor.findAttribute_eq he hhas hframe]
  cases hg : tree.group? name with
  | none => rfl
  | some g =>
    obtain ⟨_, hvalues⟩ := hsound.group hg
    exact mapM_literal hvalues

end Attributes

/-! ### Visitors that do the same everywhere -/

/-- The visitor's answer depends on the node alone, and so does what it does; the traversal is left
as it is. -/
structure Visitor.Acts (v : Visitor σ) (d : Document) (answer : Spot → Verdict)
    (act : σ → Nodes → Spot → σ) : Prop where
  enter : ∀ {c : Cursor} {nodes : Nodes} {spot : Spot} (s : σ), d.JustRead c nodes spot →
    v.enter c spot.depth (spot.tree.node nodes spot.offset) s =
      .ok (answer spot, c, act s nodes spot)
  leave : ∀ (e : Element) (s : σ), v.leave e s = .ok s

namespace Visitor.Acts

variable {v : Visitor σ} {answer : Spot → Verdict} {act : σ → Nodes → Spot → σ} {s s' : σ}
  {meetings : List Meeting}

theorem looks (h : v.Acts d answer act) : v.Looks d :=
  ⟨fun s hread => ⟨_, _, _, h.enter s hread, .refl⟩, h.leave⟩

theorem of_meets (h : v.Acts d answer act) (hmeets : v.Meets d s meetings s') :
    (∀ m ∈ meetings, answer m.spot = m.verdict ∧ d.JustRead m.after m.nodes m.spot) ∧
      s' = meetings.foldl (fun s m => act s m.nodes m.spot) s := by
  induction hmeets with
  | nil => exact ⟨nofun, rfl⟩
  | @cons s s₁ s₂ m meetings read enter _ _ ih =>
    have henter := Except.ok.inj ((h.enter s read).symm.trans enter)
    obtain ⟨hverdict, hrest⟩ := Prod.mk.inj henter
    obtain ⟨hafter, rfl⟩ := Prod.mk.inj hrest
    exact ⟨List.forall_mem_cons.2 ⟨⟨hverdict, hafter ▸ read⟩, ih.1⟩, ih.2⟩

/-- **A walk with such a visitor.**  If it stops at a node, it leaves the traversal where this node
was read. -/
theorem walkWith (h : v.Acts d answer act) {c : Cursor} {nodes : Nodes} {start : Nat}
    {trees : List (Tree Quote)} (hlists : d.Lists c nodes start trees) (s : σ) :
    ∃ (meetings : List Meeting) (c' : Cursor), d.walkWith v c nodes s =
        .ok (c', meetings.foldl (fun s m => act s m.nodes m.spot) s) ∧
      meetings.map Meeting.spot = Spot.upTo answer (Tree.prunedAll answer 0 start trees) ∧
      c.Keeps nodes.depth c' ∧
      ∀ m, meetings.getLast? = some m → answer m.spot = .stop →
        d.JustRead c' m.nodes m.spot := by
  obtain ⟨meetings, goes, c', s', hwalk, hmeets, hkeeps, htour, hlast⟩ :=
    h.looks.walkWith hlists s
  obtain ⟨hanswer, rfl⟩ := h.of_meets hmeets
  have hvisits : ∀ visit ∈ meetings.map Meeting.visit, answer visit.1 = visit.2 := by
    intro visit hvisit
    obtain ⟨m, hm, rfl⟩ := List.mem_map.1 hvisit
    exact (hanswer m hm).1
  obtain ⟨hspots, hgoes⟩ := htour.eq_upTo hvisits
  rw [List.map_map] at hspots
  refine ⟨meetings, c', hwalk, hspots, hkeeps, fun m hm hstop => ?_⟩
  have hmem : m ∈ meetings := List.mem_of_getLast? hm
  have hin : m.spot ∈ Tree.prunedAll answer 0 start trees :=
    Spot.mem_of_mem_upTo (hspots ▸ List.mem_map_of_mem hmem)
  cases goes with
  | true => exact absurd hstop (hgoes.1 rfl m.spot hin)
  | false =>
    have hafter := hlast rfl
    rw [hm] at hafter
    exact Option.some.inj hafter ▸ (hanswer m hmem).2

/-- A walk with such a visitor that goes into everything gathers what is in the listing. -/
theorem walkWith_descend {gather : σ → Spot → σ}
    (h : v.Acts d (fun _ => .descend) fun s _ spot => gather s spot) {c : Cursor} {nodes : Nodes}
    {start : Nat} {trees : List (Tree Quote)} (hlists : d.Lists c nodes start trees) (s : σ) :
    ∃ c', d.walkWith v c nodes s = .ok (c', (Tree.spotsAll 0 start trees).foldl gather s) ∧
      c.Keeps nodes.depth c' := by
  obtain ⟨meetings, c', hwalk, hspots, hkeeps, _⟩ := h.walkWith hlists s
  have hne : ∀ spot ∈ Tree.spotsAll 0 start trees, Verdict.descend ≠ .stop := fun _ _ => nofun
  refine ⟨c', hwalk.trans ?_, hkeeps⟩
  rw [← Spot.upTo_of_ne hne, Tree.spotsAll, ← hspots, List.foldl_map]

end Visitor.Acts

/-! ### The text inside of an element -/

namespace Document

theorem visitText_acts : Visitor.Acts
    { enter := fun c _ node s => (visitText c node s).map fun (verdict, s) => (verdict, c, s)
      leave := fun _ s => .ok s } d (fun _ => .descend)
    (fun text _ spot => text ++ spot.tree.ownText) where
  enter := by
    intro c nodes spot text _
    obtain ⟨depth, offset, tree⟩ := spot
    cases tree with
    | text q => rfl
    | doctype | raw q | element name groups children =>
      simp only [Tree.ownText, String.append_empty]
      rfl
  leave := fun _ _ => rfl

variable {c : Cursor} {e : Element} {frame : Frame} {tree : Tree Quote}

/-- **The text inside of an element** is answered once. -/
theorem textContent_eq (he : tree.isElement) (hsound : tree.Sound d.names d.pool)
    (hhas : d.Has e.start tree.instructions) (hframe : c.ownerFrame e = .ok frame)
    (hstage : frame.stage ≠ .children) :
    ∃ c', d.textContent c e = .ok (tree.plainText, c') ∧
      d.textContent c' e = .error .childrenTwice := by
  obtain ⟨nodes, start⟩ := e
  obtain ⟨hget, hcurrent⟩ := Cursor.ownerFrame_eq_ok_iff.1 hframe
  cases tree with
  | doctype | text q | raw q => cases he
  | element name groups children =>
    have hwindow := Tree.window_eq_inside hsound hhas
    obtain ⟨inner, c₁, hask, hdepth, h₁⟩ :=
      (Cursor.at_of_frame hget).children hcurrent hstage hwindow
    have howner := (h₁.of_inner hdepth (Cursor.at_of_frame hget).id).frame_eq
    obtain ⟨c₂, hwalk, hkeeps⟩ :=
      visitText_acts.walkWith_descend (Lists.children hask hsound hhas) ""
    -- the walk inside of the element leaves the list of the element alone
    obtain ⟨frame₂, hframe₂, hlike⟩ := hkeeps.frame (hdepth ▸ Nat.lt_succ_self _) howner
    refine ⟨c₂, ?_, ?_⟩
    · rw [textContent, hask]
      show Except.map Prod.swap (d.walkWith _ c₁ inner "") = _
      rw [hwalk, Tree.foldl_ownText, String.empty_append]
      rfl
    · have hchildren : c₂.children d ⟨nodes, start⟩ = .error .childrenTwice := by
        rw [Cursor.children, hwindow]
        show Except.bind (c₂.ownerFrame ⟨nodes, start⟩) _ = _
        rw [Cursor.ownerFrame_eq_ok_iff.2 ⟨hframe₂, hlike.current.trans hcurrent⟩]
        show (if frame₂.stage = .children then _ else _) = _
        rw [if_pos (hlike.stage.1 rfl)]
        rfl
      rw [textContent, hchildren]
      rfl

/-! ### The values of an attribute -/

theorem visitValues_acts (element : ElementName) (name : AttributeName) : Visitor.Acts
    { enter := fun c _ node s =>
        (d.visitValues element name c node s).map fun (verdict, s) => (verdict, c, s)
      leave := fun _ s => .ok s } d (fun _ => .descend)
    (fun values _ spot => values ++ (spot.tree.valuesOf element name).toArray) where
  enter := by
    intro c nodes spot values hread
    obtain ⟨depth, offset, tree⟩ := spot
    cases tree with
    | doctype | text q | raw q =>
      exact congrArg (fun vs => Except.ok (_, c, vs)) Array.append_empty.symm
    | element tag groups children =>
      obtain ⟨frame, hframe, _⟩ := hread.ownerFrame rfl
      have hname := Element.name_of_has (e := ⟨nodes, offset⟩) rfl hread.has
      have hvalues := valuesOf_eq (e := ⟨nodes, offset⟩) rfl hread.sound hread.has hframe name
      show Except.map _ (if Element.name ⟨nodes, offset⟩ d = element then _ else _) = _
      rw [Tree.valuesOf, hname]
      by_cases hn : Element.name ⟨nodes, offset⟩ d = element
      · rw [if_pos hn, if_pos (congrArg some hn), hvalues]
        rfl
      · rw [if_neg hn, if_neg fun h => hn (Option.some.inj h)]
        exact congrArg (fun vs => Except.ok (_, c, vs)) Array.append_empty.symm
  leave := fun _ _ => rfl

/-- **The values of an attribute on the elements of a name**, in order. -/
theorem attributeValues_eq {forest : List (Tree Quote)} (h : d.Spells forest)
    (element : ElementName) (name : AttributeName) :
    d.attributeValues element name =
      .ok ((Tree.spotsAll 0 0 forest).flatMap fun spot => spot.tree.valuesOf element name) := by
  obtain ⟨c, hwalk, _⟩ := (visitValues_acts element name).walkWith_descend (.document h) #[]
  have hgather : ∀ (spots : List Spot) (values : Array String),
      (spots.foldl (fun values spot => values ++ (spot.tree.valuesOf element name).toArray)
        values).toList =
        values.toList ++ spots.flatMap fun spot => spot.tree.valuesOf element name := by
    intro spots
    induction spots with
    | nil => exact fun values => (List.append_nil _).symm
    | cons spot spots ih =>
      intro values
      rw [List.foldl_cons, ih, List.flatMap_cons, Array.toList_append, List.append_assoc]
  rw [attributeValues, walkAll, walk, hwalk]
  exact congrArg Except.ok (hgather _ #[])

/-- The card has one element with a class, recorded in two places. -/
example : (Recording.card.compile.bind fun d => d.attributeValues ⟨113⟩ .className) =
    .ok ["a", "b"] := by
  decide +kernel

/-! ### Elements by id -/

def answerId (id : String) (spot : Spot) : Verdict :=
  if spot.tree.firstId? = some id then .stop else .descend

/-- What such a visitor has found. -/
def foundId (id : String) (found : Option Element) (nodes : Nodes) (spot : Spot) : Option Element :=
  if spot.tree.firstId? = some id then some ⟨nodes, spot.offset⟩ else found

theorem visitId_acts (id : String) : Visitor.Acts
    { enter := fun c _ node s =>
        (d.visitId id c node s).map fun (verdict, s) => (verdict, c, s)
      leave := fun _ s => .ok s } d (answerId id) (foundId id) where
  enter := by
    intro c nodes spot found hread
    obtain ⟨depth, offset, tree⟩ := spot
    cases tree with
    | doctype | text q | raw q => rfl
    | element tag groups children =>
      obtain ⟨frame, hframe, _⟩ := hread.ownerFrame rfl
      have hid := idOf_eq (e := ⟨nodes, offset⟩) rfl hread.sound hread.has hframe
      show Except.map _ (Except.map _ (d.idOf c ⟨nodes, offset⟩)) = _
      rw [hid, answerId, foundId]
      by_cases h : (Tree.element tag groups children).firstId? = some id
      · simp only [Except.map, if_pos h]
      · simp only [Except.map, if_neg h]
  leave := fun _ _ => rfl

theorem answerId_eq_stop_iff {id : String} {spot : Spot} :
    answerId id spot = .stop ↔ spot.tree.firstId? = some id := by
  by_cases h : spot.tree.firstId? = some id <;> simp [answerId, h]

theorem foldl_foundId {id : String} {meetings : List Meeting}
    (h : ∀ m ∈ meetings, m.spot.tree.firstId? ≠ some id) :
    meetings.foldl (fun found m => foundId id found m.nodes m.spot) none = none := by
  induction meetings with
  | nil => rfl
  | cons m meetings ih =>
    obtain ⟨hm, hmeetings⟩ := List.forall_mem_cons.1 h
    rw [List.foldl_cons, foundId, if_neg hm, ih hmeetings]

section ById

variable {forest : List (Tree Quote)} {id : String}

/-- A walk that looks for an id stops at the first node that has it. -/
theorem exists_meetings_of_id (h : d.Spells forest) (id : String) :
    ∃ (meetings : List Meeting) (c : Cursor), d.elementById id =
        .ok (meetings.foldl (fun found m => foundId id found m.nodes m.spot) none, c) ∧
      meetings.map Meeting.spot = Spot.upTo (answerId id) (Tree.spotsAll 0 0 forest) ∧
      ∀ m, meetings.getLast? = some m → answerId id m.spot = .stop →
        d.JustRead c m.nodes m.spot := by
  obtain ⟨meetings, c, hwalk, hspots, _, hlast⟩ := (visitId_acts id).walkWith (.document h) none
  have hnever : ∀ spot : Spot, answerId id spot ≠ .skip := by
    intro spot
    rw [answerId]
    split <;> simp
  rw [Tree.prunedAll_eq_spotsAll hnever] at hspots
  refine ⟨meetings, c, ?_, hspots, hlast⟩
  rw [elementById, walkAll, walk, hwalk]
  rfl

/-- **Looking for an id** that no element has. -/
theorem elementById_of_none (h : d.Spells forest)
    (hnone : (Tree.spotsAll 0 0 forest).find? (fun spot => spot.tree.firstId? = some id) = none) :
    ∃ c, d.elementById id = .ok (none, c) := by
  obtain ⟨meetings, c, helement, hspots, _⟩ := exists_meetings_of_id h id
  have hother : ∀ spot ∈ Tree.spotsAll 0 0 forest, spot.tree.firstId? ≠ some id := by
    simpa using hnone
  refine ⟨c, helement.trans ?_⟩
  rw [foldl_foundId fun m hm => hother m.spot <| Spot.mem_of_mem_upTo <|
    hspots ▸ List.mem_map_of_mem hm]

/-- **Looking for an element by its id** finds the first one in order.  It was just read, and can be
asked for everything. -/
theorem elementById_of_some (h : d.Spells forest) {spot : Spot}
    (hfind : (Tree.spotsAll 0 0 forest).find? (fun spot => spot.tree.firstId? = some id) =
      some spot) :
    ∃ nodes c, d.elementById id = .ok (some ⟨nodes, spot.offset⟩, c) ∧
      d.JustRead c nodes spot := by
  obtain ⟨meetings, c, helement, hspots, hlast⟩ := exists_meetings_of_id h id
  have hid : spot.tree.firstId? = some id := by simpa using List.find?_some hfind
  simp only [← answerId_eq_stop_iff] at hfind
  obtain ⟨before, hupTo⟩ := Spot.upTo_of_find?_eq_some hfind
  -- the last node that was met is the one that was found
  obtain ⟨others, last, rfl, _, hm⟩ := List.map_eq_append_iff.1 (hspots.trans hupTo)
  obtain ⟨m, rfl, rfl⟩ := List.map_eq_singleton_iff.1 hm
  refine ⟨m.nodes, c, ?_, hlast m List.getLast?_concat (answerId_eq_stop_iff.2 hid)⟩
  rw [helement, List.foldl_append, List.foldl_cons, foundId, if_pos hid]
  rfl

end ById

end Document

/-! ### Attributes one after another -/

/-- A handle yields these attributes one after another, and then no further one. -/
inductive Cursor.Yields (c : Cursor) : Attributes → List AttributeGroup → Prop
  | done {attributes attributes' : Attributes}
    (last : c.nextAttribute attributes = .ok (none, attributes')) : c.Yields attributes []
  | next {attributes attributes' : Attributes} {g : AttributeGroup} {gs : List AttributeGroup}
    (first : c.nextAttribute attributes = .ok (some g, attributes'))
    (rest : c.Yields attributes' gs) : c.Yields attributes (g :: gs)

namespace Cursor

variable {c : Cursor} {e : Element} {frame : Frame} {tree : Tree Quote}

theorem yields_of_stage (hframe : c.ownerFrame e = .ok frame) (hstage : frame.stage = .attributes)
    (gs : List AttributeGroup) : c.Yields ⟨e, gs⟩ gs := by
  have hnext : ∀ gs : List AttributeGroup,
      c.nextAttribute ⟨e, gs⟩ = .ok (gs.head?, ⟨e, gs.tail⟩) := by
    intro gs
    have hunread : c.unreadAttributes ⟨e, gs⟩ = .ok gs := by
      rw [unreadAttributes, hframe]
      exact if_neg (not_not_intro hstage)
    rw [nextAttribute, hunread]
    rfl
  induction gs with
  | nil => exact .done (hnext [])
  | cons g gs ih => exact .next (hnext (g :: gs)) ih

/-- **The attributes of an element** can be asked for until its children are, and come in order. -/
theorem exists_yields (he : tree.isElement) (hhas : d.Has e.start tree.instructions)
    (hframe : c.ownerFrame e = .ok frame) (hstage : frame.stage ≠ .children) :
    ∃ attributes c', c.attributes d e = .ok (attributes, c') ∧
      c'.Yields attributes (tree.groups.map Group.attribute) := by
  obtain ⟨nodes, start⟩ := e
  obtain ⟨hget, hcurrent⟩ := ownerFrame_eq_ok_iff.1 hframe
  obtain ⟨c', hask, h', _⟩ := (at_of_frame hget).attributes (d := d) hcurrent hstage
  refine ⟨_, c', hask, ?_⟩
  rw [← Element.groups_of_has he hhas]
  exact yields_of_stage (h'.ownerFrame hcurrent) rfl _

end Cursor

theorem AttributeGroup.find?_eq_some_iff {gs : List AttributeGroup}
    (h : (gs.map AttributeGroup.name).Nodup) {name : AttributeName} {g : AttributeGroup} :
    gs.find? (fun g => g.name = name) = some g ↔ g ∈ gs ∧ g.name = name := by
  constructor
  · intro hfind
    exact ⟨List.mem_of_find?_eq_some hfind, by simpa using List.find?_some hfind⟩
  · rintro ⟨hmem, rfl⟩
    cases hfind : gs.find? (fun g' => g'.name = g.name) with
    | none => exact absurd (decide_eq_true rfl) (List.find?_eq_none.1 hfind g hmem)
    | some g' =>
      have hname : g'.name = g.name := by simpa using List.find?_some hfind
      exact congrArg some
        (List.inj_on_of_nodup_map h (List.mem_of_find?_eq_some hfind) hmem hname)

theorem Tree.Sound.nodup_attributes {tree : Tree Quote} {names : Names} {pool : String}
    (h : tree.Sound names pool) :
    ((tree.groups.map Group.attribute).map AttributeGroup.name).Nodup := by
  rw [List.map_map]
  cases tree with
  | doctype | text q | raw q => exact List.nodup_nil
  | element name groups children => exact h.2.1

/-! ### All queries -/

/-- The answers to queries are those that the trees give. -/
structure Document.Answers (d : Document) (forest : List (Tree Quote)) : Prop where
  /-- No element has the id. -/
  absent : ∀ id : String,
    (Tree.spotsAll 0 0 forest).find? (fun spot => spot.tree.firstId? = some id) = none →
    ∃ c, d.elementById id = .ok (none, c)
  /-- The first element that has the id is found, and answers its text once. -/
  found : ∀ (id : String) (spot : Spot),
    (Tree.spotsAll 0 0 forest).find? (fun spot => spot.tree.firstId? = some id) = some spot →
    ∃ (e : Element) (c c' : Cursor), d.elementById id = .ok (some e, c) ∧ e.start = spot.offset ∧
      d.textContent c e = .ok (spot.tree.plainText, c') ∧
      d.textContent c' e = .error .childrenTwice
  values : ∀ (element : ElementName) (name : AttributeName), d.attributeValues element name =
    .ok ((Tree.spotsAll 0 0 forest).flatMap fun spot => spot.tree.valuesOf element name)
  /-- An attribute is found if and only if it is among those that come one after another. -/
  attributes : ∀ {spot : Spot} {c : Cursor} {e : Element} {frame : Frame},
    spot ∈ Tree.spotsAll 0 0 forest → spot.tree.isElement → e.start = spot.offset →
    c.ownerFrame e = .ok frame → ∃ gs : List AttributeGroup,
      gs = spot.tree.groups.map Group.attribute ∧
      (frame.stage ≠ .children →
        ∃ attributes c', c.attributes d e = .ok (attributes, c') ∧ c'.Yields attributes gs) ∧
      ∀ name : AttributeName,
        (∀ g, c.findAttribute d e name = .ok (some g) ↔ g ∈ gs ∧ g.name = name) ∧
        (c.findAttribute d e name = .ok none ↔ ∀ g ∈ gs, g.name ≠ name)

theorem Document.Spells.answers {forest : List (Tree Quote)} (h : d.Spells forest) :
    d.Answers forest where
  absent _ := elementById_of_none h
  found := by
    intro id spot hfind
    obtain ⟨nodes, c, hfound, hread⟩ := elementById_of_some h hfind
    have hid : spot.tree.firstId? = some id := by simpa using List.find?_some hfind
    -- only elements have ids
    have helement : spot.tree.isElement := by
      obtain ⟨depth, offset, tree⟩ := spot
      cases tree with
      | doctype | text q | raw q => cases hid
      | element name groups children => rfl
    obtain ⟨frame, hframe, hstage⟩ := hread.ownerFrame helement
    obtain ⟨c', htext, hagain⟩ := textContent_eq (e := ⟨nodes, spot.offset⟩) helement hread.sound
      hread.has hframe (hstage.trans_ne nofun)
    exact ⟨⟨nodes, spot.offset⟩, c, c', hfound, rfl, htext, hagain⟩
  values := attributeValues_eq h
  attributes := by
    intro spot c e frame hspot helement hstart hframe
    obtain ⟨hsound, hhas⟩ := Tree.sound_of_mem_spotsAll forest h.sound h.has spot hspot
    rw [← hstart] at hhas
    refine ⟨_, rfl, Cursor.exists_yields helement hhas hframe, fun name => ?_⟩
    have hfind : c.findAttribute d e name =
        .ok ((spot.tree.groups.map Group.attribute).find? fun g => g.name = name) := by
      rw [Cursor.findAttribute, hframe, Element.groups_of_has helement hhas]
      rfl
    rw [hfind]
    refine ⟨fun g => ?_, ?_⟩
    · exact Iff.trans ⟨Except.ok.inj, congrArg Except.ok⟩
        (AttributeGroup.find?_eq_some_iff hsound.nodup_attributes)
    · rw [Except.ok.injEq, List.find?_eq_none]
      simp only [decide_eq_true_eq, ne_eq]

/-- **Queries agree with the trees.**  Every recording can be compiled, and every query of the
document is answered.  Looking for an id finds the first element in order whose attribute `id` has
it as its first value; this element then answers the text inside of it, once.  The values of an
attribute on the elements of a name are those of all such elements in order.  An element that is
current answers an attribute by its name if and only if this attribute is among those that it
yields one after another. -/
theorem Recording.queries_of_madeBy {t : Recording} {calls : List SpelledCall}
    (h : t.MadeBy calls) :
    ∃ (draft : Draft Quote) (d : Document),
      Draft.new.requestEach calls = some (draft.map Quote.text) ∧ t.compile = .ok d ∧
      d.Answers draft.trees := by
  obtain ⟨draft, d, hcalls, _, hcompile, _, hspells⟩ := h.compile
  exact ⟨draft, d, hcalls, hcompile, hspells.answers⟩

theorem Recording.card_queries : card.MadeBy cardCalls ∧
    ∃ (draft : Draft Quote) (d : Document),
      Draft.new.requestEach cardCalls = some (draft.map Quote.text) ∧ card.compile = .ok d ∧
      d.Answers draft.trees :=
  ⟨card_madeBy, queries_of_madeBy card_madeBy⟩

end HtmlTape
