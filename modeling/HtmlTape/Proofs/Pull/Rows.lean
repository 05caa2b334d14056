import HtmlTape.Proofs.Pull.Plot

/-!
# The frames of a cursor and the lists it serves

A row is a list of nodes with its handle, its account and its place in the bytecode.  A cursor
serves the rows of its traversal (`Cursor.Serves`): its frames belong, from the bottom up, to a
chain of rows, each of which lies in all those before it; these rows are live, and no other row of
the traversal is.

The handle of a live row finds its frame, and the handle of a row that is not live finds none
(`Cursor.Serves.frame_of_live`, `Cursor.Serves.frame_of_not_live`): a frame at the same depth has
another identity.  Identities are given out in order, and they come around only after
`Cursor.idCount` of them.
-/

namespace HtmlTape

open Ledger (NodeList)

/-- A list of nodes that was handed out. -/
structure Row where
  owned : Owned Nodes
  list : NodeList
  plot : Plot

namespace Row

/-- The row with number `m` after the next node of the row with number `n` was asked for. -/
def afterNext (n m : Nat) (row : Row) : Row := { row with list := row.list.afterNext n m }

theorem getElem?_mapIdx_afterNext (rows : List Row) (n m : Nat) :
    (rows.mapIdx (afterNext n))[m]? = rows[m]?.map (afterNext n m) :=
  List.getElem?_mapIdx

theorem exists_of_afterNext {rows : List Row} {n m : Nat} {row' : Row}
    (h : (rows.mapIdx (afterNext n))[m]? = some row') :
    ∃ row, rows[m]? = some row ∧ row' = row.afterNext n m := by
  rw [getElem?_mapIdx_afterNext] at h
  obtain ⟨row, hrow, heq⟩ := Option.map_eq_some_iff.1 h
  exact ⟨row, hrow, heq.symm⟩

theorem afterNext_of_notMem {n m : Nat} {row : Row} (hm : m ≠ n) (hn : n ∉ row.list.outer) :
    row.afterNext n m = row := by
  rw [afterNext, NodeList.afterNext_of_notMem hm hn]

theorem getElem?_concat_eq_some {rows : List Row} {row row' : Row} {n : Nat}
    (h : (rows ++ [row])[n]? = some row') :
    rows[n]? = some row' ∨ n = rows.length ∧ row' = row := by
  by_cases hn : n < rows.length
  · rw [List.getElem?_append_left hn] at h
    exact .inl h
  · have hle : rows.length ≤ n := Nat.le_of_not_lt hn
    obtain ⟨hlt, hget⟩ := List.getElem?_eq_some_iff.1 h
    rw [List.length_append, List.length_singleton] at hlt
    obtain rfl : n = rows.length := by omega
    rw [List.getElem_concat_length rfl] at hget
    exact .inr ⟨rfl, hget.symm⟩

theorem getElem?_append_of_eq_some {rows : List Row} {row : Row} {n : Nat}
    (h : rows[n]? = some row) (more : List Row) : (rows ++ more)[n]? = some row := by
  rw [List.getElem?_append_left (List.getElem?_eq_some_iff.1 h).1]
  exact h

/-- The lists of a traversal have different identities, all of them among the first `used` ones. -/
structure Numbered (rows : List Row) (t used : Nat) : Prop where
  distinct : ∀ {n m : Nat} {row row' : Row}, rows[n]? = some row → rows[m]? = some row' →
    row.owned.traversal = t → row'.owned.traversal = t →
    row.owned.handle.id = row'.owned.handle.id → n = m
  lt : ∀ {n : Nat} {row : Row}, rows[n]? = some row → row.owned.traversal = t →
    row.owned.handle.id < used

namespace Numbered

variable {rows : List Row} {t used : Nat}

theorem afterNext (h : Numbered rows t used) (n : Nat) :
    Numbered (rows.mapIdx (Row.afterNext n)) t used := by
  refine ⟨fun {k m row row'} hk hm ht ht' hid => ?_, fun {m row} hm ht => ?_⟩
  · obtain ⟨_, hk₀, rfl⟩ := exists_of_afterNext hk
    obtain ⟨_, hm₀, rfl⟩ := exists_of_afterNext hm
    exact h.distinct hk₀ hm₀ ht ht' hid
  · obtain ⟨_, hm₀, rfl⟩ := exists_of_afterNext hm
    exact (h.lt hm₀ ht :)

theorem concat_other (h : Numbered rows t used) {row : Row} (hrow : row.owned.traversal ≠ t) :
    Numbered (rows ++ [row]) t used := by
  refine ⟨fun {k m row₁ row₂} hk hm ht ht' hid => ?_, fun {m row'} hm ht => ?_⟩
  · rcases getElem?_concat_eq_some hk with hk | ⟨_, rfl⟩
    · rcases getElem?_concat_eq_some hm with hm | ⟨_, rfl⟩
      · exact h.distinct hk hm ht ht' hid
      · exact absurd ht' hrow
    · exact absurd ht hrow
  · rcases getElem?_concat_eq_some hm with hm | ⟨_, rfl⟩
    · exact h.lt hm ht
    · exact absurd ht hrow

theorem concat (h : Numbered rows t used) {row : Row} (hid : row.owned.handle.id = used) :
    Numbered (rows ++ [row]) t (used + 1) := by
  refine ⟨fun {k m row₁ row₂} hk hm ht ht' hids => ?_, fun {m row'} hm ht => ?_⟩
  · rcases getElem?_concat_eq_some hk with hk₀ | ⟨rfl, rfl⟩
    · rcases getElem?_concat_eq_some hm with hm₀ | ⟨rfl, rfl⟩
      · exact h.distinct hk₀ hm₀ ht ht' hids
      · exact absurd (h.lt hk₀ ht) (by omega)
    · rcases getElem?_concat_eq_some hm with hm₀ | ⟨rfl, rfl⟩
      · exact absurd (h.lt hm₀ ht') (by omega)
      · rfl
  · rcases getElem?_concat_eq_some hm with hm | ⟨rfl, rfl⟩
    · exact Nat.lt_succ_of_lt (h.lt hm ht)
    · exact Nat.lt_succ_of_le (Nat.le_of_eq hid)

end Numbered

end Row

theorem Cursor.frame_eq_ok_iff {c : Cursor} {nodes : Nodes} {frame : Frame} :
    c.frame nodes = .ok frame ↔ c.frames[nodes.depth]? = some frame ∧ frame.id = nodes.id := by
  rw [Cursor.frame]
  constructor
  · intro h
    split at h
    · rename_i frame' hget
      split at h
      · rename_i hid
        cases h
        exact ⟨hget, hid⟩
      · cases h
    · cases h
  · rintro ⟨hget, hid⟩
    rw [hget]
    exact if_pos hid

/-- A list of nodes is found or was moved past; nothing else happens. -/
theorem Cursor.frame_eq_error {c : Cursor} {nodes : Nodes}
    (h : ∀ frame, c.frame nodes ≠ .ok frame) : c.frame nodes = .error .movedPast := by
  rw [Cursor.frame] at h ⊢
  split at h
  · rename_i frame _
    split at h
    · exact absurd rfl (h frame)
    · rename_i hid
      exact if_neg hid
  · rfl

theorem Cursor.ownerFrame_eq_ok_iff {c : Cursor} {e : Element} {frame : Frame} :
    c.ownerFrame e = .ok frame ↔ c.frame e.owner = .ok frame ∧ frame.current = some e.start := by
  constructor
  · intro h
    obtain ⟨frame', hframe, hrest⟩ := of_bind_eq_ok h
    by_cases hcurrent : frame'.current = some e.start
    · rw [if_neg (not_not_intro hcurrent)] at hrest
      cases hrest
      exact ⟨hframe, hcurrent⟩
    · rw [if_pos hcurrent] at hrest
      cases hrest
  · rintro ⟨hframe, hcurrent⟩
    rw [Cursor.ownerFrame, hframe]
    show (if frame.current ≠ some e.start then _ else _) = _
    rw [if_neg (not_not_intro hcurrent)]
    rfl

theorem Cursor.of_children_eq_ok {c c' : Cursor} {d : Document} {e : Element} {nodes : Nodes}
    (h : c.children d e = .ok (nodes, c')) :
    ∃ first stop frame, e.window d = .ok (first, stop) ∧ c.frame e.owner = .ok frame ∧
      frame.stage ≠ .children ∧ nodes = ⟨e.owner.depth + 1, c.nextId⟩ ∧
      c' = ⟨(c.withFrame e.owner { frame with stage := .children }).frames ++
        [⟨c.nextId, false, first, stop, none, .fresh⟩], (c.nextId + 1) % idCount⟩ := by
  obtain ⟨⟨first, stop⟩, hwindow, hrest⟩ := of_bind_eq_ok h
  obtain ⟨frame, hframe, hrest⟩ := of_bind_eq_ok hrest
  by_cases hstage : frame.stage = .children
  · rw [if_pos hstage] at hrest
    cases hrest
  · rw [if_neg hstage] at hrest
    cases hrest
    exact ⟨first, stop, frame, hwindow, (Cursor.ownerFrame_eq_ok_iff.1 hframe).1, hstage, rfl, rfl⟩

theorem Cursor.of_attributes_eq_ok {c c' : Cursor} {d : Document} {e : Element}
    {attributes : Attributes} (h : c.attributes d e = .ok (attributes, c')) :
    ∃ frame, c.frame e.owner = .ok frame ∧ frame.stage ≠ .children ∧ attributes.element = e ∧
      c' = { c with
        frames := c.frames.set e.owner.depth { frame with stage := .attributes } } := by
  obtain ⟨frame, hframe, hrest⟩ := of_bind_eq_ok h
  by_cases hstage : frame.stage = .children
  · rw [if_pos hstage] at hrest
    cases hrest
  · rw [if_neg hstage] at hrest
    cases hrest
    exact ⟨frame, (Cursor.ownerFrame_eq_ok_iff.1 hframe).1, hstage, rfl, rfl⟩

/-- The frames of the cursor of traversal `t` are those of a chain of rows, and the traversal has
handed out `used` lists. -/
structure Cursor.Serves (c : Cursor) (rows : List Row) (t used : Nat) (chain : List Nat) :
    Prop where
  length : c.frames.length = chain.length
  stands : ∀ {i n : Nat}, chain[i]? = some n → ∃ row frame, rows[n]? = some row ∧
    c.frames[i]? = some frame ∧ row.owned = ⟨t, ⟨i, frame.id⟩⟩ ∧
    row.list.outer = chain.take i ∧ frame.Fits row.plot row.list
  live : ∀ {n : Nat} {row : Row}, rows[n]? = some row → row.owned.traversal = t →
    (row.list.live = true ↔ n ∈ chain)
  /-- Only the children of the element that was read last can still be handed out, and only once. -/
  entered : ∀ {i : Nat} {frame : Frame}, i + 1 < chain.length → c.frames[i]? = some frame →
    frame.stage = .children
  nextId : c.nextId = used % Cursor.idCount
  numbered : Row.Numbered rows t used

namespace Cursor.Serves

variable {c : Cursor} {rows : List Row} {t used n : Nat} {chain : List Nat} {row : Row}
  {frame : Frame}

/-! ### Looking up a list -/

theorem place_unique (h : c.Serves rows t used chain) {i j : Nat} (hi : chain[i]? = some n)
    (hj : chain[j]? = some n) : i = j := by
  obtain ⟨row, _, hrow, _, howned, _⟩ := h.stands hi
  obtain ⟨row', _, hrow', _, howned', _⟩ := h.stands hj
  obtain rfl : row = row' := Option.some.inj (hrow.symm.trans hrow')
  have := howned.symm.trans howned'
  injection this with _ hhandle
  injection hhandle

/-- The rows before a place of the chain, by their places. -/
theorem mem_take_iff (h : c.Serves rows t used chain) {i j : Nat} (hi : chain[i]? = some n) :
    n ∈ chain.take j ↔ i < j := by
  constructor
  · intro hmem
    obtain ⟨k, hk⟩ := List.mem_iff_getElem?.1 hmem
    have hkj : k < j := by
      have := (List.getElem?_eq_some_iff.1 hk).1
      rw [List.length_take] at this
      omega
    rw [List.getElem?_take_of_lt hkj] at hk
    exact h.place_unique hk hi ▸ hkj
  · intro hij
    refine List.mem_of_getElem? (i := i) ?_
    rw [List.getElem?_take_of_lt hij, hi]

/-- **The handle of a live list finds its frame**, at the place of the list in the chain. -/
theorem frame_of_live (h : c.Serves rows t used chain) (hrow : rows[n]? = some row)
    (ht : row.owned.traversal = t) (hlive : row.list.live = true) :
    ∃ frame, c.frame row.owned.handle = .ok frame ∧ frame.Fits row.plot row.list ∧
      chain[row.owned.handle.depth]? = some n ∧
      row.list.outer = chain.take row.owned.handle.depth := by
  obtain ⟨i, hi⟩ := List.mem_iff_getElem?.1 ((h.live hrow ht).1 hlive)
  obtain ⟨row', frame, hrow', hframe, howned, houter, hfits⟩ := h.stands hi
  obtain rfl : row = row' := Option.some.inj (hrow.symm.trans hrow')
  have hdepth : row.owned.handle.depth = i := by rw [howned]
  refine ⟨frame, Cursor.frame_eq_ok_iff.2 ⟨?_, ?_⟩, hfits, hdepth ▸ hi, hdepth ▸ houter⟩
  · rw [hdepth, hframe]
  · rw [howned]

theorem live_of_frame (h : c.Serves rows t used chain) (hrow : rows[n]? = some row)
    (ht : row.owned.traversal = t) (hframe : c.frame row.owned.handle = .ok frame) :
    row.list.live = true := by
  obtain ⟨hget, hid⟩ := Cursor.frame_eq_ok_iff.1 hframe
  have hlt : row.owned.handle.depth < chain.length :=
    h.length ▸ (List.getElem?_eq_some_iff.1 hget).1
  -- the frame is that of the row at this place of the chain, whose identity is that of the handle
  have hm := List.getElem?_eq_getElem hlt
  obtain ⟨row', frame', hrow', hget', howned, _⟩ := h.stands hm
  obtain rfl : frame = frame' := Option.some.inj (hget.symm.trans hget')
  have hn : n = chain[row.owned.handle.depth] :=
    h.numbered.distinct hrow hrow' ht (by rw [howned]) (by rw [howned]; exact hid.symm)
  exact (h.live hrow ht).2 (List.mem_of_getElem? (hn ▸ hm))

/-- **The handle of a list that is not live finds no frame.** -/
theorem frame_of_not_live (h : c.Serves rows t used chain) (hrow : rows[n]? = some row)
    (ht : row.owned.traversal = t) (hlive : ¬ row.list.live = true) :
    c.frame row.owned.handle = .error .movedPast :=
  Cursor.frame_eq_error fun _ hframe => hlive (h.live_of_frame hrow ht hframe)

/-! ### Reading on -/

/-- A list is live after another one was read on if its place in the chain is not after that of
the other one. -/
theorem live_afterNext_iff (h : c.Serves rows t used chain) {i m : Nat}
    (hn : chain[i]? = some n) (hm : rows[m]? = some row) (ht : row.owned.traversal = t) :
    (row.afterNext n m).list.live = true ↔ m ∈ chain.take (i + 1) := by
  rw [Row.afterNext, NodeList.live_afterNext, h.live hm ht]
  by_cases hin : m ∈ chain
  · -- what the row lies in is what comes before its place
    obtain ⟨j, hj⟩ := List.mem_iff_getElem?.1 hin
    obtain ⟨_, _, hrow, _, _, houter, _⟩ := h.stands hj
    cases hm.symm.trans hrow
    have hmn : m = n ↔ i = j :=
      ⟨fun hmn => h.place_unique hn (hmn ▸ hj), fun hij =>
        Option.some.inj (hj.symm.trans (hij ▸ hn))⟩
    rw [houter, h.mem_take_iff hn, h.mem_take_iff hj, hmn]
    exact ⟨fun hor => by omega, fun hlt => ⟨hin, by omega⟩⟩
  · exact iff_of_false (fun hand => hin hand.1) fun hmem => hin (List.mem_of_mem_take hmem)

/-- A live list is read on: the lists inside of it are dropped, and nothing else is. -/
theorem next (h : c.Serves rows t used chain) (hrow : rows[n]? = some row)
    (ht : row.owned.traversal = t) (hlive : row.list.live = true) {frame' : Frame}
    (hframe : c.frame row.owned.handle = .ok frame) (hid : frame'.id = frame.id)
    (hfits : frame'.Fits row.plot { row.list with asked := row.list.asked + 1 }) :
    (c.withFrame row.owned.handle frame').Serves (rows.mapIdx (Row.afterNext n)) t used
      (chain.take (row.owned.handle.depth + 1)) := by
  obtain ⟨_, hframe', _, hn, houter⟩ := h.frame_of_live hrow ht hlive
  cases hframe.symm.trans hframe'
  obtain ⟨hget, hframeid⟩ := Cursor.frame_eq_ok_iff.1 hframe
  generalize hi : row.owned.handle.depth = i at *
  have hlt : i < c.frames.length := (List.getElem?_eq_some_iff.1 hget).1
  have htake : (c.frames.take i).length = i := List.length_take_of_le (Nat.le_of_lt hlt)
  have hframes : (c.withFrame row.owned.handle frame').frames = c.frames.take i ++ [frame'] := by
    rw [Cursor.withFrame, hi]
  have hbelow : ∀ j < i, (c.frames.take i ++ [frame'])[j]? = c.frames[j]? := by
    intro j hj
    rw [List.getElem?_append_left (htake.symm ▸ hj), List.getElem?_take_of_lt hj]
  rw [h.length] at hlt
  refine ⟨?_, ?_, ?_, ?_, h.nextId, h.numbered.afterNext n⟩
  · rw [hframes, List.length_append, htake, List.length_take_of_le hlt]
    rfl
  · intro j m hm
    have hj := (List.getElem?_eq_some_iff.1 hm).1
    rw [List.length_take_of_le hlt] at hj
    rw [List.getElem?_take_of_lt hj] at hm
    rw [hframes, Row.getElem?_mapIdx_afterNext, List.take_take,
      Nat.min_eq_left (Nat.le_of_lt hj)]
    by_cases hji : j = i
    · subst hji
      obtain rfl : n = m := Option.some.inj (hn.symm.trans hm)
      refine ⟨row.afterNext n n, frame', by rw [hrow]; rfl, ?_, ?_, ?_, ?_⟩
      · rw [List.getElem?_append_right (Nat.le_of_eq htake), htake, Nat.sub_self]
        rfl
      · show row.owned = ⟨t, ⟨j, frame'.id⟩⟩
        rw [hid, hframeid, ← hi, ← ht]
      · rw [Row.afterNext, NodeList.afterNext_self, houter]
      · rw [Row.afterNext, NodeList.afterNext_self]
        exact hfits
    · obtain ⟨row', frame'', hrow', hframe'', howned, houter', hfits'⟩ := h.stands hm
      refine ⟨row', frame'', ?_, ?_, howned, houter', hfits'⟩
      · rw [hrow', Option.map_some, Row.afterNext_of_notMem]
        · rintro rfl
          exact hji (h.place_unique hm hn)
        · rw [houter', h.mem_take_iff hn]
          omega
      · rw [hbelow j (by omega), hframe'']
  · intro m row' hm ht'
    obtain ⟨row', hm₀, rfl⟩ := Row.exists_of_afterNext hm
    exact h.live_afterNext_iff hn hm₀ ht'
  · intro j frame'' hj hget'
    rw [List.length_take_of_le hlt] at hj
    rw [hframes, hbelow j (by omega)] at hget'
    exact h.entered (by omega) hget'

theorem next_other (h : c.Serves rows t used chain) (hrow : rows[n]? = some row)
    (ht : row.owned.traversal ≠ t) :
    c.Serves (rows.mapIdx (Row.afterNext n)) t used chain := by
  have hnot : n ∉ chain := by
    intro hmem
    obtain ⟨i, hi⟩ := List.mem_iff_getElem?.1 hmem
    obtain ⟨row', _, hrow', _, howned, _⟩ := h.stands hi
    obtain rfl : row = row' := Option.some.inj (hrow.symm.trans hrow')
    exact ht (by rw [howned])
  refine ⟨h.length, ?_, ?_, h.entered, h.nextId, h.numbered.afterNext n⟩
  · intro i m hi
    obtain ⟨row', frame, hrow', hframe, howned, houter, hfits⟩ := h.stands hi
    refine ⟨row', frame, ?_, hframe, howned, houter, hfits⟩
    have hmn : m ≠ n := by
      rintro rfl
      exact hnot (List.mem_of_getElem? hi)
    rw [Row.getElem?_mapIdx_afterNext, hrow', Option.map_some,
      Row.afterNext_of_notMem hmn fun hmem => hnot (List.mem_of_mem_take (houter ▸ hmem))]
  · intro m row' hm ht'
    obtain ⟨row', hm₀, rfl⟩ := Row.exists_of_afterNext hm
    rw [Row.afterNext, NodeList.live_afterNext, h.live hm₀ ht']
    refine ⟨And.left, fun hin => ⟨hin, .inr fun hmem => ?_⟩⟩
    obtain ⟨j, hj⟩ := List.mem_iff_getElem?.1 hin
    obtain ⟨_, _, hrow', _, _, houter', _⟩ := h.stands hj
    cases hm₀.symm.trans hrow'
    exact hnot (List.mem_of_mem_take (houter' ▸ hmem))

/-! ### Handing out lists -/

theorem concat_other (h : c.Serves rows t used chain) (ht : row.owned.traversal ≠ t) :
    c.Serves (rows ++ [row]) t used chain := by
  refine ⟨h.length, ?_, ?_, h.entered, h.nextId, h.numbered.concat_other ht⟩
  · intro i n hi
    obtain ⟨row', frame, hrow', hstands⟩ := h.stands hi
    exact ⟨row', frame, Row.getElem?_append_of_eq_some hrow' _, hstands⟩
  · intro n row' hn ht'
    rcases Row.getElem?_concat_eq_some hn with hn | ⟨_, rfl⟩
    · exact h.live hn ht'
    · exact absurd ht' ht

theorem concat (h : c.Serves rows t used chain) (hused : used < Cursor.idCount)
    (hstage : ∀ {i : Nat} {frame : Frame}, c.frames[i]? = some frame → frame.stage = .children)
    (hid : frame.id = c.nextId) (howned : row.owned = ⟨t, ⟨chain.length, frame.id⟩⟩)
    (houter : row.list.outer = chain) (hlive : row.list.live = true)
    (hfits : frame.Fits row.plot row.list) :
    Cursor.Serves ⟨c.frames ++ [frame], (c.nextId + 1) % Cursor.idCount⟩ (rows ++ [row]) t
      (used + 1) (chain ++ [rows.length]) := by
  have hnext : c.nextId = used := h.nextId.trans (Nat.mod_eq_of_lt hused)
  refine ⟨?_, ?_, ?_, ?_, by rw [hnext], h.numbered.concat ?_⟩
  · rw [List.length_append, List.length_append, h.length]
    rfl
  · intro i n hi
    by_cases hlt : i < chain.length
    · rw [List.getElem?_append_left hlt] at hi
      obtain ⟨row', frame', hrow', hget, howned', houter', hfits'⟩ := h.stands hi
      refine ⟨row', frame', Row.getElem?_append_of_eq_some hrow' _, ?_, howned', ?_, hfits'⟩
      · rw [List.getElem?_append_left (h.length ▸ hlt), hget]
      · rw [houter', List.take_append_of_le_length (Nat.le_of_lt hlt)]
    · obtain rfl : i = chain.length := by
        have := (List.getElem?_eq_some_iff.1 hi).1
        rw [List.length_append, List.length_singleton] at this
        omega
      rw [List.getElem?_concat_length] at hi
      cases hi
      refine ⟨row, frame, List.getElem?_concat_length, ?_, howned, ?_, hfits⟩
      · rw [← h.length, List.getElem?_concat_length]
      · rw [List.take_left, houter]
  · intro n row' hn ht'
    rw [List.mem_append, List.mem_singleton]
    rcases Row.getElem?_concat_eq_some hn with hn₀ | ⟨rfl, rfl⟩
    · have hne : n ≠ rows.length := Nat.ne_of_lt (List.getElem?_eq_some_iff.1 hn₀).1
      rw [h.live hn₀ ht']
      exact ⟨.inl, fun hor => hor.resolve_right hne⟩
    · exact iff_of_true hlive (.inr rfl)
  · intro i frame' hi hget
    rw [List.length_append, List.length_singleton] at hi
    rw [List.getElem?_append_left (h.length ▸ Nat.lt_of_succ_lt_succ hi)] at hget
    exact hstage hget
  · rw [howned, ← hnext, hid]

theorem start {d : Document} (hnew : ∀ row ∈ rows, row.owned.traversal ≠ t)
    (howned : row.owned = ⟨t, Nodes.document⟩) (houter : row.list.outer = [])
    (hlive : row.list.live = true)
    (hfits : Frame.Fits ⟨0, true, 0, d.code.size, none, .fresh⟩ row.plot row.list) :
    (Cursor.start d).Serves (rows ++ [row]) t 1 [rows.length] := by
  have hnone : ∀ {n : Nat} {row : Row}, rows[n]? = some row → row.owned.traversal ≠ t :=
    fun hn => hnew _ (List.mem_of_getElem? hn)
  have hempty : Cursor.Serves ⟨[], 0⟩ rows t 0 [] :=
    { length := rfl
      stands := fun hi => nomatch hi
      live := fun hn ht => absurd ht (hnone hn)
      entered := fun _ hget => nomatch hget
      nextId := rfl
      numbered := ⟨fun hn _ ht => absurd ht (hnone hn), fun hn ht => absurd ht (hnone hn)⟩ }
  exact hempty.concat (by decide) (fun hget => nomatch hget) rfl howned houter hlive hfits

theorem withStage (h : c.Serves rows t used chain) (hget : c.frames[n]? = some frame)
    (hstage : frame.stage ≠ .children) (stage : Stage) :
    Cursor.Serves { c with frames := c.frames.set n { frame with stage } } rows t used chain := by
  refine ⟨?_, fun {i m} hm => ?_, h.live, fun {i frame'} hi hget' => ?_, h.nextId, h.numbered⟩
  · rw [List.length_set]
    exact h.length
  · obtain ⟨row, frame', hrow, hget', howned, houter, hfits⟩ := h.stands hm
    by_cases hin : n = i
    · subst hin
      cases hget.symm.trans hget'
      exact ⟨row, _, hrow, List.getElem?_set_self (List.getElem?_eq_some_iff.1 hget).1, howned,
        houter, hfits.withStage stage⟩
    · exact ⟨row, frame', hrow, (List.getElem?_set_ne hin).trans hget', howned, houter, hfits⟩
  · by_cases hin : n = i
    · subst hin
      exact absurd (h.entered hi hget) hstage
    · exact h.entered hi ((List.getElem?_set_ne hin).symm.trans hget')

/-- **The children of the element that was read last are handed out.**  If they were not asked for
before, the list of the element is the last one of the chain. -/
theorem children (h : c.Serves rows t used chain) (hused : used < Cursor.idCount)
    (hrow : rows[n]? = some row) (ht : row.owned.traversal = t)
    (hframe : c.frame row.owned.handle = .ok frame) (hstage : frame.stage ≠ .children)
    {inner : Row} {frame' : Frame} (hid : frame'.id = c.nextId)
    (howned : inner.owned = ⟨t, ⟨row.owned.handle.depth + 1, frame'.id⟩⟩)
    (houter : inner.list.outer = row.list.outer ++ [n]) (hlive : inner.list.live = true)
    (hfits : frame'.Fits inner.plot inner.list) :
    Cursor.Serves ⟨(c.withFrame row.owned.handle { frame with stage := .children }).frames ++
        [frame'], (c.nextId + 1) % Cursor.idCount⟩
      (rows ++ [inner]) t (used + 1) (chain ++ [rows.length]) := by
  obtain ⟨hget, _⟩ := Cursor.frame_eq_ok_iff.1 hframe
  obtain ⟨_, _, _, hn, houter'⟩ := h.frame_of_live hrow ht (h.live_of_frame hrow ht hframe)
  have hlast : row.owned.handle.depth + 1 = chain.length := by
    by_contra hne
    have hlt : row.owned.handle.depth < chain.length := (List.getElem?_eq_some_iff.1 hn).1
    exact hstage (h.entered (by omega) hget)
  have hframes : (c.withFrame row.owned.handle { frame with stage := .children }).frames =
      c.frames.set row.owned.handle.depth { frame with stage := .children } := by
    rw [Cursor.withFrame, List.set_eq_take_append_cons_drop,
      if_pos (List.getElem?_eq_some_iff.1 hget).1, List.drop_of_length_le]
    exact Nat.le_of_eq (h.length.trans hlast.symm)
  have hchain : row.list.outer ++ [n] = chain := by
    rw [← List.take_length (l := chain), ← hlast, List.take_add_one, hn, houter']
    rfl
  have hnoted := h.withStage hget hstage .children
  rw [hframes]
  refine hnoted.concat hused (fun {i frame''} hi => ?_) hid ?_ (houter.trans hchain) hlive hfits
  · by_cases hlt : i + 1 < chain.length
    · exact hnoted.entered hlt hi
    · obtain rfl : i = row.owned.handle.depth := by
        have := (List.getElem?_eq_some_iff.1 hi).1
        rw [List.length_set, h.length] at this
        omega
      rw [List.getElem?_set_self (List.getElem?_eq_some_iff.1 hget).1] at hi
      cases hi
      rfl
  · rw [howned, hlast]

end Cursor.Serves

end HtmlTape
