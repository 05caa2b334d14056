import HtmlTape.Proofs.Pull.Kept

/-!
# How long an element can be asked for what is inside of it

The handle of an element is good as long as the list that it was read from is live and no later
*element* was read from it; after that every use of it, and of the attributes that were handed out
for it, is found to break the protocol (`Recording.elements_of_madeBy`).

Reading on past other nodes does not end it: a frame holds the element that was read last, and
texts, raw markup and doctypes leave it there.  An element can be followed by a text and still be
asked for its children (`Recording.memo_children`).
-/

namespace HtmlTape

open Ledger (NodeList Place)

variable {d : Document} {forest : List (Tree Quote)} {rows : List Row} {count : Nat}

theorem Tree.isElement_map {τ σ : Type} (f : τ → σ) (tree : Tree τ) :
    (tree.map f).isElement = tree.isElement := by
  cases tree <;> rfl

/-- A later element of the list was read. -/
def Ledger.NodeList.Passed (list : NodeList) (index : Nat) : Prop :=
  ∃ j, index < j ∧ j < list.asked ∧ list.trees[j]?.any Tree.isElement = true

/-- The list of a place is not live, or a later element of it was read. -/
def Ledger.Stale (l : Ledger) (place : Place) : Prop :=
  ∃ list, l.lists[place.list]? = some list ∧ (list.live = false ∨ list.Passed place.index)

theorem Ledger.Stale.later {l l' : Ledger} {place : Place} (h : l.Stale place)
    (hbefore : l.Before l') : l'.Stale place := by
  obtain ⟨list, hlist, hstale⟩ := h
  obtain ⟨list', hlist', hearlier⟩ := hbefore place.list list hlist
  refine ⟨list', hlist', ?_⟩
  rcases hstale with hlive | ⟨j, hj, hasked, helement⟩
  · refine .inl (Bool.eq_false_iff.2 fun hlive' => ?_)
    rw [hearlier.live hlive'] at hlive
    cases hlive
  · exact .inr ⟨j, hj, Nat.lt_of_lt_of_le hasked hearlier.asked, hearlier.trees ▸ helement⟩

theorem Cursor.ownerFrame_eq_error {c : Cursor} {e : Element}
    (h : ∀ frame, c.ownerFrame e ≠ .ok frame) : c.ownerFrame e = .error .movedPast := by
  rw [Cursor.ownerFrame] at h ⊢
  cases hframe : c.frame e.owner with
  | error fault =>
    have hmoved : c.frame e.owner = .error .movedPast :=
      Cursor.frame_eq_error fun _ hok => by cases hframe.symm.trans hok
    cases hframe.symm.trans hmoved
    rfl
  | ok frame =>
    rw [hframe] at h
    by_cases hcurrent : frame.current = some e.start
    · refine absurd ?_ (h frame)
      show (if frame.current ≠ some e.start then _ else _) = _
      rw [if_neg (not_not_intro hcurrent)]
      rfl
    · show (if frame.current ≠ some e.start then _ else _) = _
      rw [if_pos hcurrent]
      rfl

/-! ### Where a handle is found moved past -/

/-- Nothing but the first step finds that a handle was moved past. -/
theorem bind_eq_movedPast_iff {α β : Type} {x : Except Fault α} {f : α → Except Fault β}
    (hf : ∀ a, f a ≠ .error .movedPast) : x >>= f = .error .movedPast ↔ x = .error .movedPast := by
  cases x with
  | error fault => exact ⟨fun h => by cases h; rfl, fun h => by cases h; rfl⟩
  | ok a => exact iff_of_false (hf a) fun h => by cases h

theorem map_eq_movedPast_iff {α β : Type} {x : Except Fault α} {f : α → β} :
    x.map f = .error .movedPast ↔ x = .error .movedPast := by
  cases x with
  | error fault => exact ⟨fun h => by cases h; rfl, fun h => by cases h; rfl⟩
  | ok a => exact iff_of_false (fun h => by cases h) fun h => by cases h

namespace Cursor

variable {c : Cursor} {e : Element}

theorem children_eq_movedPast_iff {window : Nat × Nat} (hwindow : e.window d = .ok window) :
    c.children d e = .error .movedPast ↔ c.ownerFrame e = .error .movedPast := by
  rw [Cursor.children, hwindow]
  show (c.ownerFrame e >>= fun frame => _) = _ ↔ _
  refine bind_eq_movedPast_iff fun frame => ?_
  by_cases hstage : frame.stage = .children
  · rw [if_pos hstage]
    intro h
    cases h
  · rw [if_neg hstage]
    intro h
    cases h

theorem attributes_eq_movedPast_iff :
    c.attributes d e = .error .movedPast ↔ c.ownerFrame e = .error .movedPast := by
  refine bind_eq_movedPast_iff fun frame => ?_
  by_cases hstage : frame.stage = .children
  · rw [if_pos hstage]
    intro h
    cases h
  · rw [if_neg hstage]
    intro h
    cases h

theorem unreadAttributes_eq_movedPast_iff {attributes : Attributes} :
    c.unreadAttributes attributes = .error .movedPast ↔
      c.ownerFrame attributes.element = .error .movedPast := by
  refine bind_eq_movedPast_iff fun frame => ?_
  by_cases hstage : frame.stage ≠ .attributes
  · rw [if_pos hstage]
    intro h
    cases h
  · rw [if_neg hstage]
    intro h
    cases h

end Cursor

theorem Session.addGroup_ne_movedPast (s : Session) (g : Option AttributeGroup) :
    s.addGroup g ≠ .error .movedPast := by
  cases g with
  | none => intro h; cases h
  | some g =>
    rw [Session.addGroup, AttributeGroup.nameText, Names.attributeText]
    split
    · intro h; cases h
    · intro h; cases h

/-! ### Stale handles -/

namespace History.Kept

variable {s : Session} {l : Ledger}

/-- **The frame of an element's list holds the element** unless it is stale. -/
theorem ownerFrame (h : History.Kept ⟨s, l⟩ d forest rows count) {t : Nat} {e : Element}
    {place : Place} (hread : Row.ReadIn rows ⟨t, e⟩ place) :
    (∃ frame, (s.cursor t).ownerFrame e = .ok frame) ↔ ¬ l.Stale place := by
  obtain ⟨row, hn, hread⟩ := hread
  have hsound := h.sound row (List.mem_of_getElem? hn)
  have ht : row.owned.traversal = t := by rw [hread.owner]
  have howner : row.owned.handle = e.owner := by rw [hread.owner]
  obtain ⟨_, chain, used, _, hserves⟩ := h.serves (ht ▸ hsound.traversal)
  have hlist : l.lists[place.list]? = some row.list := by
    rw [h.getElem?_lists, hn, Option.map_some]
  have hpassed : ∀ j : Nat, (row.list.trees[j]?).any Tree.isElement =
      (row.plot.trees[j]?).any Tree.isElement := by
    intro j
    rw [hsound.getElem?, Option.any_map]
    exact congrArg (Option.any · _) (funext fun tree => tree.isElement_map Quote.text)
  constructor
  · rintro ⟨frame, hframe⟩ ⟨list, hlist', hstale⟩
    cases hlist.symm.trans hlist'
    obtain ⟨hframe, hcurrent⟩ := Cursor.ownerFrame_eq_ok_iff.1 hframe
    rw [← howner] at hframe
    have hlive := hserves.live_of_frame hn ht hframe
    obtain ⟨_, hframe', hfits, _⟩ := hserves.frame_of_live hn ht hlive
    cases hframe.symm.trans hframe'
    rw [hread.start, hfits.current_eq_iff hread.lt hread.element] at hcurrent
    rcases hstale with hdead | ⟨j, hj, hasked, helement⟩
    · rw [hlive] at hdead
      cases hdead
    · exact hcurrent j hj hasked (hpassed j ▸ helement)
  · intro hstale
    have hlive : row.list.live = true := by
      by_contra hdead
      exact hstale ⟨row.list, hlist, .inl (Bool.not_eq_true _ ▸ hdead)⟩
    obtain ⟨frame, hframe, hfits, _⟩ := hserves.frame_of_live hn ht hlive
    refine ⟨frame, Cursor.ownerFrame_eq_ok_iff.2 ⟨howner ▸ hframe, ?_⟩⟩
    rw [hread.start, hfits.current_eq_iff hread.lt hread.element]
    intro j hj hasked helement
    exact hstale ⟨row.list, hlist, .inr ⟨j, hj, hasked, (hpassed j).trans helement⟩⟩

theorem ownerFrame_eq_movedPast_iff (h : History.Kept ⟨s, l⟩ d forest rows count) {t : Nat}
    {e : Element} {place : Place} (hread : Row.ReadIn rows ⟨t, e⟩ place) :
    (s.cursor t).ownerFrame e = .error .movedPast ↔ l.Stale place := by
  constructor
  · intro herror
    by_contra hstale
    obtain ⟨frame, hframe⟩ := (h.ownerFrame hread).2 hstale
    cases hframe.symm.trans herror
  · intro hstale
    exact Cursor.ownerFrame_eq_error fun frame hframe =>
      (h.ownerFrame hread).1 ⟨frame, hframe⟩ hstale

theorem element_of_place (h : History.Kept ⟨s, l⟩ d forest rows count) {k : Nat} {place : Place}
    (hk : l.elements[k]? = some place) :
    ∃ owned, s.elements[k]? = some owned ∧ Row.ReadIn rows owned place := by
  obtain ⟨owned, howned, hread⟩ := exists_of_forall₂ h.elements.flip hk
  rw [Array.getElem?_toList] at howned
  exact ⟨owned, howned, hread⟩

theorem attributes_of_place (h : History.Kept ⟨s, l⟩ d forest rows count) {k : Nat}
    {place : Place} (hk : l.attributes[k]? = some place) :
    ∃ owned, s.attributes[k]? = some owned ∧
      Row.ReadIn rows ⟨owned.traversal, owned.handle.element⟩ place := by
  obtain ⟨_, howned, hread⟩ := exists_of_forall₂ h.attributes.flip hk
  rw [Session.owners, List.getElem?_map, Array.getElem?_toList] at howned
  obtain ⟨owned, hk, rfl⟩ := Option.map_eq_some_iff.1 howned
  exact ⟨owned, hk, hread⟩

/-- **The requests to an element** find it moved past exactly when it is stale. -/
theorem element_movedPast_iff (h : History.Kept ⟨s, l⟩ d forest rows count) {k : Nat}
    {place : Place} (hk : l.elements[k]? = some place) :
    (s.request (.children k) = .error .movedPast ↔ l.Stale place) ∧
      (s.request (.attributes k) = .error .movedPast ↔ l.Stale place) ∧
      ∀ name, (s.document.names.attributeNamed? name).isSome →
        (s.request (.findAttribute k name) = .error .movedPast ↔ l.Stale place) := by
  obtain ⟨⟨t, e⟩, hk, hread⟩ := h.element_of_place hk
  have hframe := h.ownerFrame_eq_movedPast_iff hread
  have hon := s.onOwned_eq hk
  obtain ⟨row, hn, hrow⟩ := hread
  obtain ⟨_, _, _, htree⟩ := hrow.exists_element
  obtain ⟨first, hwindow, _⟩ :=
    (h.sound row (List.mem_of_getElem? hn)).plot.children htree hrow.start
  rw [← h.document] at hwindow
  refine ⟨?_, ?_, fun name hname => ?_⟩
  · rw [← hframe, ← Cursor.children_eq_movedPast_iff hwindow, Session.request, hon]
    exact bind_eq_movedPast_iff fun _ h => by cases h
  · rw [← hframe, ← Cursor.attributes_eq_movedPast_iff (d := s.document), Session.request, hon]
    exact bind_eq_movedPast_iff fun _ h => by cases h
  · obtain ⟨attr, hattr⟩ := Option.isSome_iff_exists.1 hname
    rw [← hframe, Session.request, hon, hattr]
    refine (bind_eq_movedPast_iff fun g => s.addGroup_ne_movedPast g).trans ?_
    exact map_eq_movedPast_iff

/-- **The attributes of an element** are found moved past exactly when the element is stale. -/
theorem attributes_movedPast_iff (h : History.Kept ⟨s, l⟩ d forest rows count) {k : Nat}
    {place : Place} (hk : l.attributes[k]? = some place) :
    (s.request (.nextAttribute k) = .error .movedPast ↔ l.Stale place) ∧
      (s.request (.hasNextAttribute k) = .error .movedPast ↔ l.Stale place) := by
  obtain ⟨⟨t, attributes⟩, hk, hread⟩ := h.attributes_of_place hk
  have hon := s.onOwned_eq hk
  have hframe : (s.cursor t).unreadAttributes attributes = .error .movedPast ↔ l.Stale place :=
    Cursor.unreadAttributes_eq_movedPast_iff.trans (h.ownerFrame_eq_movedPast_iff hread)
  refine ⟨?_, ?_⟩
  · rw [← hframe, Session.request, hon]
    refine (bind_eq_movedPast_iff fun _ => Session.addGroup_ne_movedPast _ _).trans ?_
    exact map_eq_movedPast_iff
  · rw [← hframe, Session.request, hon]
    exact map_eq_movedPast_iff.trans map_eq_movedPast_iff

end History.Kept

/-- **Handles to elements and their attributes.**  A finished recording is compiled, and the
document is read by any requests.  A request to an element for its children, its attributes or one
of them, and a request to its attributes, finds the handle moved past exactly when the list of the
element is not live or a later element of it was read; and what is stale is stale at every later
time. -/
theorem Recording.elements_of_madeBy {t : Recording} {calls : List SpelledCall}
    (h : t.MadeBy calls) :
    ∃ (draft : Draft String) (d : Document),
      Draft.new.requestEach calls = some draft ∧ t.compile = .ok d ∧
      ∀ (requests more : List Request) (before after : History),
        (requests ++ more).countP Request.isChildren < Cursor.idCount →
        before = (History.new d draft.trees).askAll requests → after = before.askAll more →
        (∀ place, before.ledger.Stale place → after.ledger.Stale place) ∧
        (∀ (k : Nat) (place : Place), before.ledger.elements[k]? = some place →
          after.ledger.elements[k]? = some place ∧
          (after.session.request (.children k) = .error .movedPast ↔ after.ledger.Stale place) ∧
          (after.session.request (.attributes k) = .error .movedPast ↔
            after.ledger.Stale place) ∧
          ∀ name, (d.names.attributeNamed? name).isSome →
            (after.session.request (.findAttribute k name) = .error .movedPast ↔
              after.ledger.Stale place)) ∧
        ∀ (k : Nat) (place : Place), before.ledger.attributes[k]? = some place →
          after.ledger.attributes[k]? = some place ∧
          (after.session.request (.nextAttribute k) = .error .movedPast ↔
            after.ledger.Stale place) ∧
          (after.session.request (.hasNextAttribute k) = .error .movedPast ↔
            after.ledger.Stale place) := by
  obtain ⟨draft, d, hcalls, _, hcompile, _, hspells⟩ := h.compile
  refine ⟨draft.map Quote.text, d, hcalls, hcompile, fun requests more before after hcount hbefore
    hafter => ?_⟩
  rw [Draft.trees_map] at hbefore
  have hnew : (History.new d (Tree.mapAll Quote.text draft.trees)).Kept d draft.trees [] 0 :=
    .new hspells
  obtain ⟨rows, hkept⟩ := hnew.askAll (requests ++ more) (Nat.zero_add _ ▸ hcount)
  rw [History.askAll_append, ← hbefore, ← hafter] at hkept
  obtain ⟨helements, hattributes⟩ := before.prefix_askAll more
  rw [← hafter] at helements hattributes
  refine ⟨fun place hstale => hstale.later (hafter ▸ before.before_askAll more),
    fun k place hk => ?_, fun k place hk => ?_⟩
  · obtain ⟨hlt, rfl⟩ := List.getElem?_eq_some_iff.1 hk
    have hk' := List.prefix_iff_getElem?.1 helements k hlt
    rw [← hkept.document]
    exact ⟨hk', hkept.element_movedPast_iff hk'⟩
  · obtain ⟨hlt, rfl⟩ := List.getElem?_eq_some_iff.1 hk
    have hk' := List.prefix_iff_getElem?.1 hattributes k hlt
    exact ⟨hk', hkept.attributes_movedPast_iff hk'⟩

/-- The card is read up to the attributes of its element. -/
theorem Recording.card_elements : card.MadeBy cardCalls ∧
    ∃ (draft : Draft String) (d : Document),
      Draft.new.requestEach cardCalls = some draft ∧ card.compile = .ok d ∧
      ∀ after, after = (History.new d draft.trees).askAll
          [.pull, .next 0, .next 0, .attributes 0, .next 0] →
        ∀ place, after.ledger.elements[0]? = some place →
          (after.session.request (.children 0) = .error .movedPast ↔
            after.ledger.Stale place) := by
  refine ⟨card_madeBy, ?_⟩
  obtain ⟨draft, d, hcalls, hcompile, hall⟩ := elements_of_madeBy card_madeBy
  exact ⟨draft, d, hcalls, hcompile, fun after hafter place hplace =>
    ((hall _ [] _ _ (by decide) hafter rfl).2.1 0 place hplace).2.1⟩

/-! ### Past a text -/

/-- An element with nothing inside, and a text after it. -/
def Recording.memoCalls : List SpelledCall :=
  [.openElement (.spelled "p"), .closeElement, .text "x"]

def Recording.memo : Recording where
  words := #[245, 5, 72, 0, 246, 240, 0, 1, 248, 2, 0, 5]
  pool := "x"
  names := Names.standard
  root := 8
  counters := ⟨1, 0, 1, 0, 2, 1⟩

def Session.answers (s : Session) : List Request → List (Except Fault Reply)
  | [] => []
  | request :: requests =>
    match s.request request with
    | .ok (reply, s) => .ok reply :: s.answers requests
    | .error fault => .error fault :: s.answers requests

/-- **An element can be asked for its children after the text behind it was read.** -/
theorem Recording.memo_children : memo.MadeBy memoCalls ∧
    (memo.compile.map fun d =>
      (Session.new d).answers [.pull, .next 0, .next 0, .children 0]) =
    .ok [.ok (.nodes 0), .ok (.node 0 "p"), .ok (.text "x"), .ok (.nodes 1)] :=
  ⟨by decide +kernel, by decide +kernel⟩

end HtmlTape
