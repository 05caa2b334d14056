import HtmlTape.Proofs.Pull.Gathered
import HtmlTape.Proofs.Pull.Handles
import HtmlTape.Proofs.Pull.Rows

/-!
# A session keeps to its ledger

After any requests there is a row for each list of nodes of the session, every cursor serves the
rows of its traversal, and every element stands for the node at its place (`History.Kept`).  One
request preserves this (`History.Kept.ask`), whatever handle it names and whether it is granted or
not, as long as no traversal runs out of identities for its lists.
-/

namespace HtmlTape

open Ledger (NodeList Place)

variable {d : Document} {forest : List (Tree Quote)} {rows : List Row} {count : Nat}

theorem exists_of_forall₂ {α β : Type} {R : α → β → Prop} {as : List α} {bs : List β}
    (h : List.Forall₂ R as bs) {k : Nat} {a : α} (ha : as[k]? = some a) :
    ∃ b, bs[k]? = some b ∧ R a b := by
  obtain ⟨hk, rfl⟩ := List.getElem?_eq_some_iff.1 ha
  have hk' : k < bs.length := h.length_eq ▸ hk
  exact ⟨bs[k], List.getElem?_eq_getElem hk', h.get hk hk'⟩

/-! ### Rows -/

/-- The row tells of a list of the document that belongs to one of the traversals. -/
structure Row.Sound (row : Row) (d : Document) (traversals : Nat) : Prop where
  plot : row.plot.In d
  trees : row.list.trees = Tree.mapAll Quote.text row.plot.trees
  traversal : row.owned.traversal < traversals

theorem Row.Sound.getElem? {row : Row} {traversals : Nat} (h : row.Sound d traversals) (i : Nat) :
    row.list.trees[i]? = row.plot.trees[i]?.map (Tree.map Quote.text) := by
  rw [h.trees, Tree.mapAll_eq_map, List.getElem?_map]

/-- The handle stands for the element that was read at a place. -/
structure Row.Read (row : Row) (owned : Owned Element) (index : Nat) : Prop where
  owner : row.owned = ⟨owned.traversal, owned.handle.owner⟩
  start : owned.handle.start = row.plot.offset index
  lt : index < row.list.asked
  element : row.plot.trees[index]?.any Tree.isElement = true

def Row.ReadIn (rows : List Row) (owned : Owned Element) (place : Place) : Prop :=
  ∃ row, rows[place.list]? = some row ∧ row.Read owned place.index

theorem Row.Read.exists_element {row : Row} {owned : Owned Element} {index : Nat}
    (h : row.Read owned index) :
    ∃ name groups children, row.plot.trees[index]? = some (.element name groups children) := by
  have helement := h.element
  cases htree : row.plot.trees[index]? with
  | none =>
    rw [htree] at helement
    cases helement
  | some tree =>
    rw [htree] at helement
    cases tree with
    | element name groups children => exact ⟨name, groups, children, rfl⟩
    | _ => cases helement

/-- The rows of an earlier time, and those of a later one. -/
def Row.Before (rows rows' : List Row) : Prop :=
  ∀ {n : Nat} {row : Row}, rows[n]? = some row → ∃ row', rows'[n]? = some row' ∧
    row'.owned = row.owned ∧ row'.plot = row.plot ∧ row.list.Before row'.list

theorem Row.before_refl (rows : List Row) : Row.Before rows rows :=
  fun {_ row} hn => ⟨row, hn, rfl, rfl, .refl row.list⟩

theorem Row.before_append (rows more : List Row) : Row.Before rows (rows ++ more) :=
  fun {_ row} hn => ⟨row, Row.getElem?_append_of_eq_some hn more, rfl, rfl, .refl row.list⟩

theorem Row.before_afterNext (rows : List Row) (n : Nat) :
    Row.Before rows (rows.mapIdx (Row.afterNext n)) := by
  intro m row hm
  refine ⟨row.afterNext n m, ?_, rfl, rfl, NodeList.before_afterNext n m row.list⟩
  rw [Row.getElem?_mapIdx_afterNext, hm, Option.map_some]

theorem Row.ReadIn.before {rows' : List Row} {owned : Owned Element} {place : Place}
    (h : Row.ReadIn rows owned place) (hbefore : Row.Before rows rows') :
    Row.ReadIn rows' owned place := by
  obtain ⟨row, hn, howner, hstart, hlt, helement⟩ := h
  obtain ⟨row', hn', howned, hplot, hlist⟩ := hbefore hn
  exact ⟨row', hn', howned.trans howner, hplot ▸ hstart, Nat.lt_of_lt_of_le hlt hlist.asked,
    hplot ▸ helement⟩

/-! ### The invariant -/

/-- The session and its ledger tell of the same rows.  So far there were at most `count` requests
for children. -/
structure History.Kept (h : History) (d : Document) (forest : List (Tree Quote))
    (rows : List Row) (count : Nat) : Prop where
  document : h.session.document = d
  spells : d.Spells forest
  trees : h.ledger.document = Tree.mapAll Quote.text forest
  nodes : h.session.nodes.toList = rows.map Row.owned
  lists : h.ledger.lists = rows.map Row.list
  sound : ∀ row ∈ rows, row.Sound d h.session.cursors.size
  cursors : ∀ {t : Nat} {c : Cursor}, h.session.cursors[t]? = some c →
    ∃ chain used, used ≤ count + 1 ∧ c.Serves rows t used chain
  elements : List.Forall₂ (Row.ReadIn rows) h.session.elements.toList h.ledger.elements
  attributes : List.Forall₂ (Row.ReadIn rows) h.session.owners h.ledger.attributes

theorem Session.of_getElem?_withCursor {s : Session} {t t' : Nat} {c c' : Cursor}
    (h : (s.withCursor t c).cursors[t']? = some c') :
    t = t' ∧ c = c' ∨ t ≠ t' ∧ s.cursors[t']? = some c' := by
  rw [Session.withCursor, Array.getElem?_setIfInBounds] at h
  by_cases ht : t = t'
  · rw [if_pos ht] at h
    split at h
    · exact .inl ⟨ht, Option.some.inj h⟩
    · cases h
  · rw [if_neg ht] at h
    exact .inr ⟨ht, h⟩

namespace History.Kept

variable {s : Session} {l : Ledger} {n : Nat} {row : Row}

theorem new (h : d.Spells forest) :
    (History.new d (Tree.mapAll Quote.text forest)).Kept d forest [] 0 where
  document := rfl
  spells := h
  trees := rfl
  nodes := rfl
  lists := rfl
  sound := fun _ hrow => nomatch hrow
  cursors := fun hc => nomatch hc
  elements := .nil
  attributes := .nil

theorem getElem?_nodes (h : History.Kept ⟨s, l⟩ d forest rows count) (n : Nat) :
    s.nodes[n]? = rows[n]?.map Row.owned := by
  rw [← Array.getElem?_toList, h.nodes, List.getElem?_map]

theorem getElem?_lists (h : History.Kept ⟨s, l⟩ d forest rows count) (n : Nat) :
    l.lists[n]? = rows[n]?.map Row.list := by
  rw [h.lists, List.getElem?_map]

theorem serves (h : History.Kept ⟨s, l⟩ d forest rows count) {t : Nat} (ht : t < s.cursors.size) :
    s.cursors[t]? = some (s.cursor t) ∧
      ∃ chain used, used ≤ count + 1 ∧ (s.cursor t).Serves rows t used chain := by
  have hc : s.cursors[t]? = some (s.cursor t) := by
    rw [Session.cursor, Array.getD_eq_getD_getElem?, Array.getElem?_eq_getElem ht]
    rfl
  exact ⟨hc, h.cursors hc⟩

theorem onNodes (h : History.Kept ⟨s, l⟩ d forest rows count) (hn : rows[n]? = some row)
    (f : Nat → Cursor → Nodes → Session.Outcome) :
    s.onOwned s.nodes n f = f row.owned.traversal (s.cursor row.owned.traversal) row.owned.handle :=
  s.onOwned_eq (by rw [h.getElem?_nodes, hn, Option.map_some]) f

theorem grow (h : History.Kept ⟨s, l⟩ d forest rows count) {rows' : List Row} {count' : Nat}
    {cursors' : Array Cursor} {nodes' : Array (Owned Nodes)} {lists' : List NodeList}
    (hbefore : Row.Before rows rows') (hnodes : nodes'.toList = rows'.map Row.owned)
    (hlists : lists' = rows'.map Row.list)
    (hsound : ∀ row ∈ rows', row.Sound d cursors'.size)
    (hcursors : ∀ {t : Nat} {c : Cursor}, cursors'[t]? = some c →
      ∃ chain used, used ≤ count' + 1 ∧ c.Serves rows' t used chain) :
    History.Kept ⟨{ s with cursors := cursors', nodes := nodes' }, { l with lists := lists' }⟩
      d forest rows' count' where
  document := h.document
  spells := h.spells
  trees := h.trees
  nodes := hnodes
  lists := hlists
  sound := hsound
  cursors := hcursors
  elements := h.elements.imp fun _ _ hread => hread.before hbefore
  attributes := h.attributes.imp fun _ _ hread => hread.before hbefore

/-- Nothing was moved. -/
theorem congr (h : History.Kept ⟨s, l⟩ d forest rows count) {s' : Session}
    (hs' : s.SameHandles s') : History.Kept ⟨s', l⟩ d forest rows count where
  document := hs'.document.trans h.document
  spells := h.spells
  trees := h.trees
  nodes := hs'.nodes ▸ h.nodes
  lists := h.lists
  sound := hs'.cursors ▸ h.sound
  cursors := hs'.cursors ▸ h.cursors
  elements := hs'.elements ▸ h.elements
  attributes := hs'.owners ▸ h.attributes

theorem of_le (h : History.Kept ⟨s, l⟩ d forest rows count) {count' : Nat}
    (hle : count ≤ count') : History.Kept ⟨s, l⟩ d forest rows count' where
  __ := h
  cursors := fun hc => by
    obtain ⟨chain, used, hused, hserves⟩ := h.cursors hc
    exact ⟨chain, used, Nat.le_trans hused (Nat.succ_le_succ hle), hserves⟩

theorem addElement (h : History.Kept ⟨s, l⟩ d forest rows count) (owned : Owned Element)
    {place : Place} (hread : Row.ReadIn rows owned place) :
    History.Kept ⟨{ s with elements := s.elements.push owned },
      { l with elements := l.elements ++ [place] }⟩ d forest rows count where
  document := h.document
  spells := h.spells
  trees := h.trees
  nodes := h.nodes
  lists := h.lists
  sound := h.sound
  cursors := h.cursors
  elements := by
    rw [Array.toList_push]
    exact List.rel_append h.elements (.cons hread .nil)
  attributes := h.attributes

theorem addAttributes (h : History.Kept ⟨s, l⟩ d forest rows count) (owned : Owned Attributes)
    {place : Place} (hread : Row.ReadIn rows ⟨owned.traversal, owned.handle.element⟩ place) :
    History.Kept ⟨{ s with attributes := s.attributes.push owned },
      { l with attributes := l.attributes ++ [place] }⟩ d forest rows count where
  document := h.document
  spells := h.spells
  trees := h.trees
  nodes := h.nodes
  lists := h.lists
  sound := h.sound
  cursors := h.cursors
  elements := h.elements
  attributes := by
    rw [Session.owners, Array.toList_push, List.map_append]
    exact List.rel_append h.attributes (.cons hread .nil)

/-! ### Reading on -/

/-- The rows and the cursors after a live list was read on. -/
theorem readOn (h : History.Kept ⟨s, l⟩ d forest rows count) (hn : rows[n]? = some row)
    {c : Cursor} {chain : List Nat} {used : Nat} (hused : used ≤ count + 1)
    (hserves : c.Serves (rows.mapIdx (Row.afterNext n)) row.owned.traversal used chain) :
    History.Kept ⟨s.withCursor row.owned.traversal c,
        { l with lists := l.lists.mapIdx (NodeList.afterNext n) }⟩
      d forest (rows.mapIdx (Row.afterNext n)) count := by
  refine h.grow (Row.before_afterNext rows n) ?_ ?_ (fun row' hrow' => ?_) fun {t' c'} hc' => ?_
  · rw [h.nodes]
    refine List.ext_getElem? fun m => ?_
    rw [List.getElem?_map, List.getElem?_map, Row.getElem?_mapIdx_afterNext, Option.map_map]
    rfl
  · rw [h.lists]
    refine List.ext_getElem? fun m => ?_
    rw [List.getElem?_map, List.getElem?_mapIdx, List.getElem?_map, Row.getElem?_mapIdx_afterNext,
      Option.map_map, Option.map_map]
    rfl
  · obtain ⟨m, hm⟩ := List.mem_iff_getElem?.1 hrow'
    obtain ⟨row₀, hm₀, rfl⟩ := Row.exists_of_afterNext hm
    obtain ⟨hplot, htrees, ht⟩ := h.sound row₀ (List.mem_of_getElem? hm₀)
    refine ⟨hplot, (NodeList.before_afterNext n m row₀.list).trees.trans htrees, ?_⟩
    rw [Array.size_setIfInBounds]
    exact ht
  · rcases Session.of_getElem?_withCursor hc' with ⟨rfl, rfl⟩ | ⟨hne, hc'⟩
    · exact ⟨chain, used, hused, hserves⟩
    · obtain ⟨chain', used', hused', hserves'⟩ := h.cursors hc'
      exact ⟨chain', used', hused', hserves'.next_other hn hne⟩

/-- **A live list is read on.**  The answer is the next node of the list. -/
theorem next (h : History.Kept ⟨s, l⟩ d forest rows count) (hn : rows[n]? = some row)
    (hlive : row.list.live = true) :
    ∃ s', s.request (.next n) = .ok (row.list.reply d.names l.elements.length, s') ∧
      History.Kept ⟨s', l.next n⟩ d forest (rows.mapIdx (Row.afterNext n)) count := by
  obtain rfl := h.document
  have hsound := h.sound row (List.mem_of_getElem? hn)
  obtain ⟨_, chain, used, hused, hserves⟩ := h.serves hsound.traversal
  obtain ⟨frame, hframe, hfits, _, _⟩ := hserves.frame_of_live hn rfl hlive
  obtain ⟨frame', hnext, hid, hfits'⟩ := hfits.next hsound.plot row.owned.handle
  have hkept := h.readOn hn hused (hserves.next hn rfl hlive hframe hid hfits')
  have hstep : s.request (.next n) = (s.withCursor row.owned.traversal
      ((s.cursor row.owned.traversal).withFrame row.owned.handle frame')).addNode
        row.owned.traversal (row.plot.trees[row.list.asked]?.map fun tree =>
          tree.node row.owned.handle (row.plot.offset row.list.asked)) := by
    rw [Session.request, h.onNodes hn, Cursor.next, hframe]
    show Except.bind (Except.bind (frame.next _ _) _) _ = _
    rw [hnext]
    rfl
  have hlist : l.lists[n]? = some row.list := by rw [h.getElem?_lists, hn, Option.map_some]
  have hsize : l.elements.length = s.elements.size := h.elements.length_eq.symm
  have hnode : row.list.next? =
      row.plot.trees[row.list.asked]?.map (Tree.map Quote.text) := hsound.getElem? _
  rw [hstep, NodeList.reply, hnode]
  cases htree : row.plot.trees[row.list.asked]? with
  | none =>
    rw [htree] at hnode
    rw [Ledger.next_of_not_isElement hlist (by rw [hnode]; rfl)]
    exact ⟨_, rfl, hkept⟩
  | some tree =>
    rw [htree] at hnode
    cases tree with
    | element name groups children =>
      rw [Ledger.next_of_isElement hlist (by rw [hnode]; rfl)]
      obtain ⟨⟨hname, _⟩, hhas⟩ := hsound.plot.tree htree
      rw [Tree.instructions] at hhas
      refine ⟨_, ?_, hkept.addElement ⟨row.owned.traversal,
        ⟨row.owned.handle, row.plot.offset row.list.asked⟩⟩ ⟨row.afterNext n n, ?_, rfl, rfl, ?_,
        ?_⟩⟩
      · show Except.bind (Element.nameText _ s.document) _ = _
        rw [Document.nameText_eq (Element.name_eq hhas) hname, hsize]
        rfl
      · show (rows.mapIdx (Row.afterNext n))[n]? = _
        rw [Row.getElem?_mapIdx_afterNext, hn, Option.map_some]
      · rw [Row.afterNext, NodeList.afterNext_self]
        exact Nat.lt_succ_self _
      · show row.plot.trees[row.list.asked]?.any Tree.isElement = true
        rw [htree]
        rfl
    | _ =>
      rw [Ledger.next_of_not_isElement hlist (by rw [hnode]; rfl)]
      exact ⟨_, rfl, hkept⟩

theorem onNodes_of_not_live (h : History.Kept ⟨s, l⟩ d forest rows count)
    (hn : rows[n]? = some row) (hlive : ¬ row.list.live = true) :
    s.request (.next n) = .error .movedPast ∧ s.request (.hasNext n) = .error .movedPast ∧
      s.request (.isDocument n) = .error .movedPast := by
  have hsound := h.sound row (List.mem_of_getElem? hn)
  obtain ⟨_, chain, used, _, hserves⟩ := h.serves hsound.traversal
  have hframe := hserves.frame_of_not_live hn rfl hlive
  refine ⟨?_, ?_, ?_⟩
  · rw [Session.request, h.onNodes hn, Cursor.next, hframe]
    rfl
  · rw [Session.request, h.onNodes hn, Cursor.hasNext, hframe]
    rfl
  · rw [Session.request, h.onNodes hn, Cursor.isDocument, hframe]
    rfl

/-- What a live list tells without being read on. -/
theorem onNodes_of_live (h : History.Kept ⟨s, l⟩ d forest rows count)
    (hn : rows[n]? = some row) (hlive : row.list.live = true) :
    s.request (.hasNext n) = .ok (.flag row.list.next?.isSome, s) ∧
      s.request (.isDocument n) = .ok (.flag row.list.outer.isEmpty, s) := by
  have hsound := h.sound row (List.mem_of_getElem? hn)
  obtain ⟨_, chain, used, _, hserves⟩ := h.serves hsound.traversal
  obtain ⟨frame, hframe, hfits, _, _⟩ := hserves.frame_of_live hn rfl hlive
  refine ⟨?_, ?_⟩
  · rw [Session.request, h.onNodes hn, Cursor.hasNext, hframe, NodeList.next?, hsound.getElem?,
      Option.isSome_map]
    show Except.ok (Reply.flag (decide (frame.pc < frame.stop)), s) = _
    rw [decide_eq_decide.2 hfits.pc_lt_stop_iff]
    by_cases hlt : row.list.asked < row.plot.trees.length
    · rw [List.getElem?_eq_getElem hlt, decide_eq_true hlt]
      rfl
    · rw [List.getElem?_eq_none (Nat.le_of_not_lt hlt), decide_eq_false hlt]
      rfl
  · rw [Session.request, h.onNodes hn, Cursor.isDocument, hframe, ← hfits.isDocument]
    rfl

/-! ### Handing out lists -/

theorem concat (h : History.Kept ⟨s, l⟩ d forest rows count) (row : Row)
    {cursors' : Array Cursor} {count' : Nat} (hsound : row.Sound d cursors'.size)
    (hsize : s.cursors.size ≤ cursors'.size)
    (hcursors : ∀ {t : Nat} {c : Cursor}, cursors'[t]? = some c →
      ∃ chain used, used ≤ count' + 1 ∧ c.Serves (rows ++ [row]) t used chain) :
    History.Kept ⟨{ s with cursors := cursors', nodes := s.nodes.push row.owned },
        { l with lists := l.lists ++ [row.list] }⟩ d forest (rows ++ [row]) count' := by
  refine h.grow (Row.before_append rows [row]) ?_ ?_ (fun row' hrow' => ?_) hcursors
  · rw [Array.toList_push, h.nodes, List.map_append, List.map_singleton]
  · rw [h.lists, List.map_append, List.map_singleton]
  · rcases List.mem_append.1 hrow' with hrow' | hrow'
    · obtain ⟨hplot, htrees, ht⟩ := h.sound row' hrow'
      exact ⟨hplot, htrees, Nat.lt_of_lt_of_le ht hsize⟩
    · cases List.mem_singleton.1 hrow'
      exact hsound

theorem pull (h : History.Kept ⟨s, l⟩ d forest rows count) :
    ∃ reply s', s.request .pull = .ok (reply, s') ∧
      ∃ row, History.Kept ⟨s', l.addList [] l.document⟩ d forest (rows ++ [row]) count := by
  obtain rfl := h.document
  have hplot := h.spells.plot
  refine ⟨_, _, rfl, _, h.concat ⟨⟨s.cursors.size, Nodes.document⟩, ⟨[], l.document, 0, true⟩,
    ⟨0, forest⟩⟩ ⟨h.spells.plot, h.trees, ?_⟩ ?_ fun {t c} hc => ?_⟩
  · rw [Array.size_push]
    exact Nat.lt_succ_self _
  · rw [Array.size_push]
    exact Nat.le_succ _
  · have hfits := Frame.Fits.start ⟨0, forest⟩ ⟨[], l.document, 0, true⟩ 0 rfl
    rw [Nat.zero_add, ← h.spells.size] at hfits
    rw [Array.getElem?_push] at hc
    split at hc
    · subst t
      cases hc
      refine ⟨_, 1, Nat.le_add_left 1 count, .start (fun row hrow => ?_) rfl rfl rfl hfits⟩
      exact Nat.ne_of_lt (h.sound row hrow).traversal
    · rename_i hne
      obtain ⟨chain, used, hused, hserves⟩ := h.cursors hc
      exact ⟨chain, used, hused, hserves.concat_other (Ne.symm hne)⟩

/-- **The children of an element are handed out.** -/
theorem children_granted (h : History.Kept ⟨s, l⟩ d forest rows count) {t : Nat} {e : Element}
    {place : Place} (hread : Row.ReadIn rows ⟨t, e⟩ place) (hcount : count + 1 < Cursor.idCount)
    {nodes : Nodes} {c' : Cursor}
    (hc : (s.cursor t).children s.document e = .ok (nodes, c')) :
    ∃ row, History.Kept ⟨((s.withCursor t c').addNodes t nodes).2, l.enter place⟩ d forest
      (rows ++ [row]) (count + 1) := by
  obtain rfl := h.document
  obtain ⟨outer, hn, hread⟩ := hread
  obtain ⟨name, groups, children, htree⟩ := hread.exists_element
  obtain ⟨first, stop, frame, hwindow, hframe, hstage, rfl, rfl⟩ := Cursor.of_children_eq_ok hc
  have hsound := h.sound outer (List.mem_of_getElem? hn)
  have ht : outer.owned.traversal = t := by rw [hread.owner]
  have howner : outer.owned.handle = e.owner := by rw [hread.owner]
  obtain ⟨_, chain, used, hused, hserves⟩ := h.serves (ht ▸ hsound.traversal)
  -- the children stand in the window of the element
  obtain ⟨first', hwindow', hplot⟩ := hsound.plot.children htree hread.start
  cases hwindow.symm.trans hwindow'
  have hfits := Frame.Fits.start ⟨first, children⟩ ⟨outer.list.outer ++ [place.list],
    Tree.mapAll Quote.text children, 0, true⟩ (s.cursor t).nextId rfl
  have houter : (outer.list.outer ++ [place.list]).isEmpty = false := by simp
  rw [houter] at hfits
  have hlist : l.lists[place.list]? = some outer.list := by
    rw [h.getElem?_lists, hn, Option.map_some]
  rw [Ledger.enter_eq hlist (by rw [hsound.getElem?, htree]; rfl)]
  refine ⟨_, h.concat ⟨⟨t, ⟨e.owner.depth + 1, (s.cursor t).nextId⟩⟩,
    ⟨outer.list.outer ++ [place.list], Tree.mapAll Quote.text children, 0, true⟩,
    ⟨first, children⟩⟩ ⟨hplot, rfl, ?_⟩ ?_ fun {t' c''} hc'' => ?_⟩
  · rw [Session.withCursor, Array.size_setIfInBounds, ← ht]
    exact hsound.traversal
  · exact Nat.le_of_eq Array.size_setIfInBounds.symm
  · rcases Session.of_getElem?_withCursor hc'' with ⟨rfl, rfl⟩ | ⟨hne, hc''⟩
    · refine ⟨chain ++ [rows.length], used + 1, Nat.succ_le_succ hused, ?_⟩
      rw [← howner] at hframe ⊢
      exact hserves.children (Nat.lt_of_le_of_lt hused hcount) hn ht hframe hstage rfl rfl rfl rfl
        hfits
    · obtain ⟨chain', used', hused', hserves'⟩ := h.cursors hc''
      exact ⟨chain', used', Nat.le_succ_of_le hused', hserves'.concat_other hne⟩

theorem withCursor (h : History.Kept ⟨s, l⟩ d forest rows count) {t : Nat} {c' : Cursor}
    (hc' : ∀ {chain : List Nat} {used : Nat}, (s.cursor t).Serves rows t used chain →
      c'.Serves rows t used chain) :
    History.Kept ⟨s.withCursor t c', l⟩ d forest rows count := by
  refine h.grow (Row.before_refl rows) h.nodes h.lists (fun row hrow => ?_) fun {t' c''} hc => ?_
  · rw [Array.size_setIfInBounds]
    exact h.sound row hrow
  · have ht' := (Array.getElem?_eq_some_iff.1 hc).1
    rw [Array.size_setIfInBounds] at ht'
    obtain ⟨_, chain, used, hused, hserves⟩ := h.serves ht'
    rcases Session.of_getElem?_withCursor hc with ⟨rfl, rfl⟩ | ⟨_, hc⟩
    · exact ⟨chain, used, hused, hc' hserves⟩
    · exact h.cursors hc

theorem attributes_granted (h : History.Kept ⟨s, l⟩ d forest rows count) {t : Nat} {e : Element}
    {place : Place} (hread : Row.ReadIn rows ⟨t, e⟩ place) {attributes : Attributes} {c' : Cursor}
    (hc : (s.cursor t).attributes s.document e = .ok (attributes, c')) :
    History.Kept ⟨{ s.withCursor t c' with attributes := s.attributes.push ⟨t, attributes⟩ },
      { l with attributes := l.attributes ++ [place] }⟩ d forest rows count := by
  obtain ⟨frame, hframe, hstage, rfl, rfl⟩ := Cursor.of_attributes_eq_ok hc
  have hget := (Cursor.frame_eq_ok_iff.1 hframe).1
  exact (h.withCursor fun hserves => hserves.withStage hget hstage .attributes).addAttributes
    ⟨t, attributes⟩ hread

/-! ### A request -/

theorem place_of_element (h : History.Kept ⟨s, l⟩ d forest rows count) {k : Nat}
    {owned : Owned Element} (hk : s.elements[k]? = some owned) :
    ∃ place, l.elements[k]? = some place ∧ Row.ReadIn rows owned place := by
  rw [← Array.getElem?_toList] at hk
  exact exists_of_forall₂ h.elements hk

theorem place_of_none (h : History.Kept ⟨s, l⟩ d forest rows count) {k : Nat}
    (hk : s.elements[k]? = none) : l.elements[k]? = none := by
  rw [List.getElem?_eq_none_iff, ← h.elements.length_eq]
  exact Array.getElem?_eq_none_iff.1 hk

/-- **A session keeps to its ledger** whatever is asked of it. -/
theorem ask {h : History} (hkept : h.Kept d forest rows count) (request : Request)
    (hcount : count + (if request.isChildren then 1 else 0) < Cursor.idCount) :
    ∃ rows', (h.ask request).Kept d forest rows'
      (count + if request.isChildren then 1 else 0) := by
  obtain ⟨s, l⟩ := h
  cases hr : s.request request with
  | error fault =>
    rw [History.ask_of_error hr]
    exact ⟨rows, hkept.of_le (Nat.le_add_right _ _)⟩
  | ok answer =>
    obtain ⟨reply, s'⟩ := answer
    rw [History.ask_of_ok hr]
    by_cases hmoves : request.moves = false
    · have hnote : l.note request = l := by
        cases request <;> first | rfl | cases hmoves
      rw [hnote]
      exact ⟨rows, (hkept.congr (Session.sameHandles_request hr hmoves)).of_le
        (Nat.le_add_right _ _)⟩
    · cases request with
      | pull =>
        obtain ⟨_, _, hr', row, hrow⟩ := hkept.pull
        cases hr.symm.trans hr'
        exact ⟨_, hrow⟩
      | next n =>
        cases hn : rows[n]? with
        | none =>
          rw [Session.request, Session.onOwned, Session.onHandle, hkept.getElem?_nodes, hn] at hr
          cases hr
          rw [Ledger.note, Ledger.next, hkept.getElem?_lists, hn]
          exact ⟨rows, hkept⟩
        | some row =>
          by_cases hlive : row.list.live = true
          · obtain ⟨_, hr', hrow⟩ := hkept.next hn hlive
            cases hr.symm.trans hr'
            exact ⟨_, hrow⟩
          · cases hr.symm.trans (hkept.onNodes_of_not_live hn hlive).1
      | children k =>
        rw [Session.request] at hr
        obtain ⟨rfl, hnone⟩ | ⟨⟨t, e⟩, hk, hr⟩ := Session.of_onOwned hr
        · rw [Ledger.note, hkept.place_of_none hnone]
          exact ⟨rows, hkept.of_le (Nat.le_add_right _ _)⟩
        · obtain ⟨⟨nodes, c'⟩, hc, hr⟩ := of_bind_eq_ok hr
          obtain ⟨place, hplace, hread⟩ := hkept.place_of_element hk
          obtain ⟨row, hrow⟩ := hkept.children_granted hread hcount hc
          cases hr
          rw [Ledger.note, hplace]
          exact ⟨_, hrow⟩
      | attributes k =>
        rw [Session.request] at hr
        obtain ⟨rfl, hnone⟩ | ⟨⟨t, e⟩, hk, hr⟩ := Session.of_onOwned hr
        · rw [Ledger.note, hkept.place_of_none hnone, Option.toList_none, List.append_nil]
          exact ⟨rows, hkept⟩
        · obtain ⟨⟨attributes, c'⟩, hc, hr⟩ := of_bind_eq_ok hr
          obtain ⟨place, hplace, hread⟩ := hkept.place_of_element hk
          cases hr
          rw [Ledger.note, hplace]
          exact ⟨rows, hkept.attributes_granted hread hc⟩
      | copyElement k =>
        rw [Session.request] at hr
        obtain ⟨rfl, hnone⟩ | ⟨owned, hk, hr⟩ := Session.of_onOwned hr
        · rw [Ledger.note, hkept.place_of_none hnone, Option.toList_none, List.append_nil]
          exact ⟨rows, hkept⟩
        · obtain ⟨place, hplace, hread⟩ := hkept.place_of_element hk
          cases hr
          rw [Ledger.note, hplace]
          exact ⟨rows, hkept.addElement owned hread⟩
      | _ => exact absurd rfl hmoves

/-- Any requests are made, and not too many of them ask for children. -/
theorem askAll (requests : List Request) : ∀ {h : History} {rows : List Row} {count : Nat},
    h.Kept d forest rows count →
    count + requests.countP Request.isChildren < Cursor.idCount →
    ∃ rows', (h.askAll requests).Kept d forest rows'
      (count + requests.countP Request.isChildren) := by
  induction requests with
  | nil => intro h rows count hkept _; exact ⟨rows, hkept⟩
  | cons request requests ih =>
    intro h rows count hkept hcount
    rw [List.countP_cons, Nat.add_left_comm, Nat.add_comm] at hcount ⊢
    obtain ⟨rows', hkept'⟩ := hkept.ask request (by omega)
    exact ih hkept' hcount

end History.Kept

end HtmlTape
