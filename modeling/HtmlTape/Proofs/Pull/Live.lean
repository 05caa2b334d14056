import HtmlTape.Proofs.Pull.Kept

/-!
# Which handles are live, and what they answer

The statement about handles to lists of nodes.  A compiled document is read by any traversals, in
any order of requests; a ledger keeps account of them from the requests alone.  A list is live
until a list around it is read on, and as long as it is live it answers its own nodes, each of
them once and in order, and then none for ever, whatever is asked of other handles in between.
When it is not live any more, every use of its handle is found to break the protocol, for ever
(`Recording.handles_of_madeBy`).

The requests for children are fewer than the identities of lists: after as many as there are,
identities are given out again, and an old handle could find a new list.
-/

namespace HtmlTape

open Ledger (NodeList)

variable {d : Document} {forest : List (Tree Quote)} {rows : List Row} {count : Nat}

/-- Every use of the handle breaks the protocol. -/
def Session.MovedPast (s : Session) (n : Nat) : Prop :=
  s.request (.next n) = .error .movedPast ∧ s.request (.hasNext n) = .error .movedPast ∧
    s.request (.isDocument n) = .error .movedPast

/-- The session has as many handles as its ledger tells of, and the live lists among them answer
what the ledger tells. -/
structure History.Obeys (h : History) : Prop where
  lists : h.session.nodes.size = h.ledger.lists.length
  elements : h.session.elements.size = h.ledger.elements.length
  attributes : h.session.attributes.size = h.ledger.attributes.length
  next : ∀ (n : Nat) (list : NodeList), h.ledger.lists[n]? = some list → list.live = true →
    ∃ s, h.session.request (.next n) =
      .ok (list.reply h.session.document.names h.ledger.elements.length, s)
  hasNext : ∀ (n : Nat) (list : NodeList), h.ledger.lists[n]? = some list → list.live = true →
    h.session.request (.hasNext n) = .ok (.flag list.next?.isSome, h.session)
  isDocument : ∀ (n : Nat) (list : NodeList), h.ledger.lists[n]? = some list →
    list.live = true → h.session.request (.isDocument n) = .ok (.flag list.outer.isEmpty, h.session)

namespace History.Kept

variable {h : History}

theorem exists_row (hkept : h.Kept d forest rows count) {n : Nat} {list : NodeList}
    (hn : h.ledger.lists[n]? = some list) : ∃ row, rows[n]? = some row ∧ row.list = list := by
  rw [hkept.lists, List.getElem?_map] at hn
  exact Option.map_eq_some_iff.1 hn

theorem obeys (hkept : h.Kept d forest rows count) : h.Obeys := by
  refine ⟨?_, hkept.elements.length_eq, ?_, fun n list hn hlive => ?_, fun n list hn hlive => ?_,
    fun n list hn hlive => ?_⟩
  · rw [← Array.length_toList, hkept.nodes, hkept.lists, List.length_map, List.length_map]
  · rw [← hkept.attributes.length_eq, Session.owners, List.length_map, Array.length_toList]
  · obtain ⟨row, hrow, rfl⟩ := hkept.exists_row hn
    obtain ⟨s, hs, _⟩ := hkept.next hrow hlive
    rw [hkept.document]
    exact ⟨s, hs⟩
  · obtain ⟨row, hrow, rfl⟩ := hkept.exists_row hn
    exact (hkept.onNodes_of_live hrow hlive).1
  · obtain ⟨row, hrow, rfl⟩ := hkept.exists_row hn
    exact (hkept.onNodes_of_live hrow hlive).2

theorem movedPast (hkept : h.Kept d forest rows count) {n : Nat} {list : NodeList}
    (hn : h.ledger.lists[n]? = some list) (hlive : ¬ list.live = true) :
    h.session.MovedPast n := by
  obtain ⟨row, hrow, rfl⟩ := hkept.exists_row hn
  exact hkept.onNodes_of_not_live hrow hlive

/-- **A list that stays live answers its nodes one after the other**, from the first that was not
read yet on, whatever else is asked in between. -/
theorem nextAnswers (requests : List Request) : ∀ {h : History} {rows : List Row} {count n : Nat}
    {list list' : NodeList}, h.Kept d forest rows count →
    count + requests.countP Request.isChildren < Cursor.idCount →
    h.ledger.lists[n]? = some list → (h.askAll requests).ledger.lists[n]? = some list' →
    list'.live = true →
    (h.nextAnswers n requests).map (Except.map Reply.unnumbered) =
      (List.range (requests.count (.next n))).map fun i =>
        .ok ((list.trees[list.asked + i]?.map (Tree.reply d.names 0)).getD .none) := by
  induction requests with
  | nil => intros; rfl
  | cons request requests ih =>
    intro h rows count n list list' hkept hcount hn hn' hlive
    rw [List.countP_cons] at hcount
    obtain ⟨rows₁, hkept₁⟩ := hkept.ask request (by omega)
    obtain ⟨list₁, hn₁, hbefore⟩ := History.before_askAll [request] h n list hn
    replace hn₁ : (h.ask request).ledger.lists[n]? = some list₁ := hn₁
    have hrest := ih hkept₁ (by omega) hn₁ hn' hlive
    rw [hbefore.trees] at hrest
    by_cases hrequest : request = .next n
    · subst hrequest
      -- a list that is live at the end was live all the time
      obtain ⟨_, hn₂, hbefore₂⟩ := History.before_askAll (.next n :: requests) h n list hn
      cases hn'.symm.trans hn₂
      obtain ⟨row, hrow, rfl⟩ := hkept.exists_row hn
      obtain ⟨s', hs', _⟩ := hkept.next hrow (hbefore₂.live hlive)
      rw [History.ask_of_ok hs', Ledger.note, Ledger.getElem?_next_self hn] at hn₁
      cases hn₁
      rw [History.nextAnswers, if_pos rfl, hs', List.map_cons, hrest, List.count_cons_self,
        List.range_succ_eq_map, List.map_cons, List.map_map]
      refine congrArg₂ List.cons ?_ (List.map_congr_left fun i _ => ?_)
      · exact congrArg Except.ok (row.list.unnumbered_reply d.names _)
      · rw [Function.comp_apply, Nat.add_right_comm, Nat.add_assoc]
    · rw [History.asked_ask hn hn₁ hrequest] at hrest
      rw [History.nextAnswers, if_neg hrequest, hrest, List.count_cons_of_ne hrequest]

end History.Kept

/-- **Handles to lists of nodes.**  A finished recording is compiled, and the document is read by
any requests, granted ones and refused ones, in any order.  As long as a list of nodes is live, its
next node is answered when it is asked for, and it is told whether there is one; what is answered
to more requests for the next node is the nodes that were not read yet, in order, and then none.
When a list is not live, every use of its handle breaks the protocol at every later time. -/
theorem Recording.handles_of_madeBy {t : Recording} {calls : List SpelledCall}
    (h : t.MadeBy calls) :
    ∃ (draft : Draft String) (d : Document),
      Draft.new.requestEach calls = some draft ∧ t.compile = .ok d ∧
      ∀ (requests more : List Request) (before after : History),
        (requests ++ more).countP Request.isChildren < Cursor.idCount →
        before = (History.new d draft.trees).askAll requests → after = before.askAll more →
        before.Obeys ∧ ∀ (n : Nat) (list : NodeList), before.ledger.lists[n]? = some list →
          ∃ list', after.ledger.lists[n]? = some list' ∧
            (list'.live = true →
              (before.nextAnswers n more).map (Except.map Reply.unnumbered) =
                (List.range (more.count (.next n))).map fun i =>
                  .ok ((list.trees[list.asked + i]?.map (Tree.reply d.names 0)).getD .none)) ∧
            (list.live = false → after.session.MovedPast n) := by
  obtain ⟨draft, d, hcalls, _, hcompile, _, hspells⟩ := h.compile
  refine ⟨draft.map Quote.text, d, hcalls, hcompile, fun requests more before after hcount hbefore
    hafter => ?_⟩
  rw [Draft.trees_map] at hbefore
  have hnew : (History.new d (Tree.mapAll Quote.text draft.trees)).Kept d draft.trees [] 0 :=
    .new hspells
  rw [List.countP_append, ← Nat.zero_add (List.countP _ requests)] at hcount
  obtain ⟨rows, hkept⟩ := hnew.askAll requests (Nat.lt_of_le_of_lt (Nat.le_add_right _ _) hcount)
  rw [← hbefore] at hkept
  obtain ⟨rows', hkept'⟩ := hkept.askAll more hcount
  rw [← hafter] at hkept'
  refine ⟨hkept.obeys, fun n list hn => ?_⟩
  obtain ⟨list', hn', hearlier⟩ := before.before_askAll more n list hn
  rw [← hafter] at hn'
  refine ⟨list', hn', fun hlive => ?_, fun hlive => ?_⟩
  · exact hkept.nextAnswers more hcount hn (hafter ▸ hn') hlive
  · refine hkept'.movedPast hn' fun hlive' => ?_
    rw [hearlier.live hlive'] at hlive
    cases hlive

/-- The card is read: its first node, the element after it, the children of the element, and then
the document on. -/
theorem Recording.card_handles : card.MadeBy cardCalls ∧
    ∃ (draft : Draft String) (d : Document),
      Draft.new.requestEach cardCalls = some draft ∧ card.compile = .ok d ∧
      ((History.new d draft.trees).askAll
        [.pull, .next 0, .next 0, .children 0, .next 1, .next 0]).Obeys := by
  refine ⟨card_madeBy, ?_⟩
  obtain ⟨draft, d, hcalls, hcompile, hall⟩ := handles_of_madeBy card_madeBy
  exact ⟨draft, d, hcalls, hcompile, (hall _ [] _ _ (by decide) rfl rfl).1⟩

end HtmlTape
