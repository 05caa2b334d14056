import HtmlTape.Proofs.Draft.Item
import HtmlTape.Pull.Session

/-!
# What requests tell of handles

A ledger keeps account of a session from its requests alone.  It knows nothing of cursors, frames
or offsets: for each list of nodes that was handed out it has the nodes of the list, how often the
next of them was asked for, the lists that it lies in, and whether it is still live; for each
element and each list of attributes it has the place where the element was read.

A list is live until the next node of a list around it is asked for.  What one list is asked for
does not matter to the account of a list that does not lie in it (`Ledger.note`).

`History.askAll` runs a session and its ledger side by side.  A request that breaks the protocol
changes neither of them.
-/

namespace HtmlTape

def Tree.isElement {τ : Type} : Tree τ → Bool
  | .element .. => true
  | .doctype | .text _ | .raw _ => false

/-- What is answered when a node is read.  An element is given the number `handle`. -/
def Tree.reply (names : Names) (handle : Nat) : Tree String → Reply
  | .doctype => .doctype
  | .text value => .text value
  | .raw value => .raw value
  | .element name _ _ => .node handle (names.tag name)

namespace Ledger

/-- The account of a list of nodes. -/
structure NodeList where
  /-- The numbers of the lists that it lies in, that of the document's own list first. -/
  outer : List Nat
  trees : List (Tree String)
  /-- How often the next node was asked for. -/
  asked : Nat
  /-- The next node of a list around it was not asked for since it was handed out. -/
  live : Bool

/-- The place of a node: the number of its list, and how many nodes of the list come before. -/
structure Place where
  list : Nat
  index : Nat
deriving DecidableEq

def NodeList.next? (list : NodeList) : Option (Tree String) := list.trees[list.asked]?

def NodeList.reply (list : NodeList) (names : Names) (handle : Nat) : Reply :=
  (list.next?.map (Tree.reply names handle)).getD .none

/-- The account of the list with number `m` after the next node of the list with number `n` was
asked for. -/
def NodeList.afterNext (n m : Nat) (list : NodeList) : NodeList :=
  if m = n then { list with asked := list.asked + 1 }
  else if n ∈ list.outer then { list with live := false }
  else list

end Ledger

open Ledger (NodeList Place)

/-- The account of a session, by the numbers of its handles. -/
structure Ledger where
  /-- The nodes of the document. -/
  document : List (Tree String)
  lists : List NodeList
  /-- Where the elements were read. -/
  elements : List Place
  /-- Where the elements were read whose attributes were handed out. -/
  attributes : List Place

namespace Ledger

def new (document : List (Tree String)) : Ledger := ⟨document, [], [], []⟩

def tree? (l : Ledger) (place : Place) : Option (Tree String) :=
  l.lists[place.list]?.bind fun list => list.trees[place.index]?

def addList (l : Ledger) (outer : List Nat) (trees : List (Tree String)) : Ledger :=
  { l with lists := l.lists ++ [⟨outer, trees, 0, true⟩] }

def next (l : Ledger) (n : Nat) : Ledger :=
  match l.lists[n]? with
  | some list =>
    { l with
      lists := l.lists.mapIdx (NodeList.afterNext n)
      elements := l.elements ++ if list.next?.any Tree.isElement then [⟨n, list.asked⟩] else [] }
  | none => l

/-- The account after the children of the element at a place were handed out. -/
def enter (l : Ledger) (place : Place) : Ledger :=
  match l.lists[place.list]?, l.tree? place with
  | some list, some (.element _ _ children) => l.addList (list.outer ++ [place.list]) children
  | _, _ => l

/-- The account after a request that was granted. -/
def note (l : Ledger) : Request → Ledger
  | .pull => l.addList [] l.document
  | .next n => l.next n
  | .children k => (l.elements[k]?.map l.enter).getD l
  | .attributes k => { l with attributes := l.attributes ++ l.elements[k]?.toList }
  | .copyElement k => { l with elements := l.elements ++ l.elements[k]?.toList }
  | _ => l

theorem next_of_isElement {l : Ledger} {n : Nat} {list : NodeList} (hn : l.lists[n]? = some list)
    (h : list.next?.any Tree.isElement = true) :
    l.next n = { l with
      lists := l.lists.mapIdx (NodeList.afterNext n)
      elements := l.elements ++ [⟨n, list.asked⟩] } := by
  simp only [next, hn, h, if_true]

theorem next_of_not_isElement {l : Ledger} {n : Nat} {list : NodeList}
    (hn : l.lists[n]? = some list) (h : list.next?.any Tree.isElement = false) :
    l.next n = { l with lists := l.lists.mapIdx (NodeList.afterNext n) } := by
  simp only [next, hn, h, Bool.false_eq_true, if_false, List.append_nil]

theorem getElem?_next_self {l : Ledger} {n : Nat} {list : NodeList}
    (hn : l.lists[n]? = some list) :
    (l.next n).lists[n]? = some { list with asked := list.asked + 1 } := by
  simp only [next, hn, List.getElem?_mapIdx, Option.map_some, NodeList.afterNext, if_true]

theorem enter_eq {l : Ledger} {place : Place} {list : NodeList} {name : ElementName}
    {groups : List (Group String)} {children : List (Tree String)}
    (hlist : l.lists[place.list]? = some list)
    (htree : list.trees[place.index]? = some (.element name groups children)) :
    l.enter place = l.addList (list.outer ++ [place.list]) children := by
  have hplace : l.tree? place = some (.element name groups children) := by
    rw [tree?, hlist]
    exact htree
  simp only [enter, hlist, hplace]

end Ledger

def Request.isChildren : Request → Bool
  | .children _ => true
  | _ => false

/-- A session with its account. -/
structure History where
  session : Session
  ledger : Ledger

namespace History

def new (d : Document) (trees : List (Tree String)) : History := ⟨Session.new d, Ledger.new trees⟩

/-- One request later.  A request that breaks the protocol changes nothing. -/
def ask (h : History) (request : Request) : History :=
  match h.session.request request with
  | .ok (_, session) => ⟨session, h.ledger.note request⟩
  | .error _ => h

def askAll (h : History) (requests : List Request) : History := requests.foldl ask h

theorem ask_of_ok {h : History} {request : Request} {reply : Reply} {session : Session}
    (hr : h.session.request request = .ok (reply, session)) :
    h.ask request = ⟨session, h.ledger.note request⟩ := by
  rw [ask, hr]

theorem ask_of_error {h : History} {request : Request} {fault : Fault}
    (hr : h.session.request request = .error fault) : h.ask request = h := by
  rw [ask, hr]

end History

/-- A reply without the number of the handle. -/
def Reply.unnumbered : Reply → Reply
  | .node _ name => .node 0 name
  | reply => reply

theorem Ledger.NodeList.unnumbered_reply (list : NodeList) (names : Names) (handle : Nat) :
    (list.reply names handle).unnumbered = list.reply names 0 := by
  rw [reply, reply]
  cases list.next? with
  | none => rfl
  | some tree => cases tree <;> rfl

namespace History

def nextAnswers (h : History) (n : Nat) : List Request → List (Except Fault Reply)
  | [] => []
  | request :: requests =>
    let rest := (h.ask request).nextAnswers n requests
    if request = .next n then (h.session.request request).map Prod.fst :: rest else rest

end History

/-! ### Later accounts -/

namespace Ledger

/-- The account of a list, and that of the same list at a later time: it is the same list, at least
as many of its nodes were asked for, and it is not live if it was not live before. -/
structure NodeList.Before (list list' : NodeList) : Prop where
  outer : list'.outer = list.outer
  trees : list'.trees = list.trees
  asked : list.asked ≤ list'.asked
  live : list'.live → list.live

namespace NodeList

theorem Before.refl (list : NodeList) : list.Before list := ⟨rfl, rfl, Nat.le_refl _, id⟩

theorem Before.trans {a b c : NodeList} (h : a.Before b) (g : b.Before c) : a.Before c :=
  ⟨g.outer.trans h.outer, g.trees.trans h.trees, Nat.le_trans h.asked g.asked,
    fun hc => h.live (g.live hc)⟩

theorem before_afterNext (n m : Nat) (list : NodeList) : list.Before (list.afterNext n m) := by
  rw [afterNext]
  by_cases hm : m = n
  · rw [if_pos hm]
    exact ⟨rfl, rfl, Nat.le_succ _, id⟩
  · rw [if_neg hm]
    by_cases hn : n ∈ list.outer
    · rw [if_pos hn]
      exact ⟨rfl, rfl, Nat.le_refl _, fun h => nomatch h⟩
    · rw [if_neg hn]
      exact .refl list

theorem afterNext_self (n : Nat) (list : NodeList) :
    list.afterNext n n = { list with asked := list.asked + 1 } := by
  rw [afterNext, if_pos rfl]

theorem afterNext_of_notMem {n m : Nat} {list : NodeList} (hm : m ≠ n) (hn : n ∉ list.outer) :
    list.afterNext n m = list := by
  rw [afterNext, if_neg hm, if_neg hn]

theorem afterNext_of_mem {n m : Nat} {list : NodeList} (hm : m ≠ n) (hn : n ∈ list.outer) :
    list.afterNext n m = { list with live := false } := by
  rw [afterNext, if_neg hm, if_pos hn]

/-- Reading a list on ends the lists inside of it, and no other one. -/
theorem live_afterNext {n m : Nat} {list : NodeList} :
    (list.afterNext n m).live = true ↔ list.live = true ∧ (m = n ∨ n ∉ list.outer) := by
  by_cases hm : m = n
  · rw [hm, afterNext_self]
    exact ⟨fun h => ⟨h, .inl rfl⟩, And.left⟩
  · by_cases hn : n ∈ list.outer
    · rw [afterNext_of_mem hm hn]
      exact iff_of_false Bool.false_ne_true fun h => h.2.elim hm fun hnot => hnot hn
    · rw [afterNext_of_notMem hm hn]
      exact ⟨fun h => ⟨h, .inr hn⟩, And.left⟩

end NodeList

/-- Every list of the ledger is a list of the later one. -/
def Before (l l' : Ledger) : Prop :=
  ∀ (n : Nat) (list : NodeList), l.lists[n]? = some list →
    ∃ list', l'.lists[n]? = some list' ∧ list.Before list'

theorem Before.refl (l : Ledger) : l.Before l := fun _ list h => ⟨list, h, .refl list⟩

theorem Before.trans {a b c : Ledger} (h : a.Before b) (g : b.Before c) : a.Before c := by
  intro n list hn
  obtain ⟨list', hn', hb⟩ := h n list hn
  obtain ⟨list'', hn'', hb'⟩ := g n list' hn'
  exact ⟨list'', hn'', hb.trans hb'⟩

theorem before_addList (l : Ledger) (outer : List Nat) (trees : List (Tree String)) :
    l.Before (l.addList outer trees) := by
  intro n list hn
  refine ⟨list, ?_, .refl list⟩
  rw [addList, List.getElem?_append_left (List.getElem?_eq_some_iff.1 hn).1]
  exact hn

theorem before_next (l : Ledger) (n : Nat) : l.Before (l.next n) := by
  rw [next]
  cases l.lists[n]? with
  | none => exact .refl l
  | some _ =>
    intro m list hm
    refine ⟨list.afterNext n m, ?_, NodeList.before_afterNext n m list⟩
    simp only [List.getElem?_mapIdx, hm, Option.map_some]

theorem before_enter (l : Ledger) (place : Place) : l.Before (l.enter place) := by
  rw [enter]
  split
  · exact l.before_addList _ _
  · exact .refl l

theorem before_note (l : Ledger) (request : Request) : l.Before (l.note request) := by
  cases request with
  | pull => exact l.before_addList [] l.document
  | next n => exact l.before_next n
  | children k =>
    rw [note]
    cases l.elements[k]? with
    | none => exact .refl l
    | some place => exact l.before_enter place
  | _ => exact fun _ list h => ⟨list, h, .refl list⟩

/-- Nothing is read from a list but by requests for its next node. -/
theorem asked_note {l : Ledger} {request : Request} {n : Nat} {list list' : NodeList}
    (hn : l.lists[n]? = some list) (hn' : (l.note request).lists[n]? = some list')
    (hrequest : request ≠ .next n) : list'.asked = list.asked := by
  have hadd : ∀ {outer : List Nat} {trees : List (Tree String)},
      (l.addList outer trees).lists[n]? = some list' → list' = list := by
    intro outer trees h
    rw [addList, List.getElem?_append_left (List.getElem?_eq_some_iff.1 hn).1] at h
    exact Option.some.inj (h.symm.trans hn)
  have hsame : l.lists[n]? = some list' → list' = list :=
    fun h => Option.some.inj (h.symm.trans hn)
  cases request with
  | pull => exact congrArg _ (hadd hn')
  | next m =>
    have hnm : n ≠ m := fun h => hrequest (h ▸ rfl)
    rw [note, next] at hn'
    split at hn'
    · rw [List.getElem?_mapIdx, hn] at hn'
      cases hn'
      rw [NodeList.afterNext, if_neg hnm]
      split <;> rfl
    · exact congrArg _ (hsame hn')
  | children k =>
    rw [note] at hn'
    cases hplace : l.elements[k]? with
    | none =>
      rw [hplace] at hn'
      exact congrArg _ (hsame hn')
    | some place =>
      rw [hplace] at hn'
      change (l.enter place).lists[n]? = _ at hn'
      rw [enter] at hn'
      split at hn'
      · exact congrArg _ (hadd hn')
      · exact congrArg _ (hsame hn')
  | _ => exact congrArg _ (hsame hn')

end Ledger

theorem History.asked_ask {h : History} {request : Request} {n : Nat} {list list' : NodeList}
    (hn : h.ledger.lists[n]? = some list) (hn' : (h.ask request).ledger.lists[n]? = some list')
    (hrequest : request ≠ .next n) : list'.asked = list.asked := by
  rw [ask] at hn'
  split at hn'
  · exact Ledger.asked_note hn hn' hrequest
  · exact congrArg _ (Option.some.inj (hn'.symm.trans hn))

/-- **A list that is not live is never live again**, and it stays the same list. -/
theorem History.before_askAll (requests : List Request) : ∀ h : History,
    h.ledger.Before (h.askAll requests).ledger := by
  induction requests with
  | nil => intro h; exact .refl _
  | cons request requests ih =>
    intro h
    have hstep : h.ledger.Before (h.ask request).ledger := by
      rw [ask]
      split
      · exact h.ledger.before_note request
      · exact .refl _
    exact hstep.trans (ih (h.ask request))

/-! ### Places -/

theorem Ledger.elements_note (l : Ledger) (request : Request) :
    l.elements <+: (l.note request).elements := by
  cases request with
  | next n =>
    rw [note, next]
    split
    · exact List.prefix_append _ _
    · exact List.prefix_rfl
  | children k =>
    rw [note]
    cases l.elements[k]? with
    | none => exact List.prefix_rfl
    | some place =>
      show _ <+: (l.enter place).elements
      rw [enter]
      split <;> exact List.prefix_rfl
  | copyElement k => exact List.prefix_append _ _
  | _ => exact List.prefix_rfl

theorem Ledger.attributes_note (l : Ledger) (request : Request) :
    l.attributes <+: (l.note request).attributes := by
  cases request with
  | next n =>
    rw [note, next]
    split <;> exact List.prefix_rfl
  | children k =>
    rw [note]
    cases l.elements[k]? with
    | none => exact List.prefix_rfl
    | some place =>
      show _ <+: (l.enter place).attributes
      rw [enter]
      split <;> exact List.prefix_rfl
  | attributes k => exact List.prefix_append _ _
  | _ => exact List.prefix_rfl

theorem History.prefix_askAll (requests : List Request) : ∀ h : History,
    h.ledger.elements <+: (h.askAll requests).ledger.elements ∧
      h.ledger.attributes <+: (h.askAll requests).ledger.attributes := by
  induction requests with
  | nil => intro h; exact ⟨List.prefix_rfl, List.prefix_rfl⟩
  | cons request requests ih =>
    intro h
    have hstep : h.ledger.elements <+: (h.ask request).ledger.elements ∧
        h.ledger.attributes <+: (h.ask request).ledger.attributes := by
      rw [ask]
      split
      · exact ⟨h.ledger.elements_note request, h.ledger.attributes_note request⟩
      · exact ⟨List.prefix_rfl, List.prefix_rfl⟩
    obtain ⟨helements, hattributes⟩ := ih (h.ask request)
    exact ⟨hstep.1.trans helements, hstep.2.trans hattributes⟩

theorem History.askAll_append (h : History) (requests more : List Request) :
    h.askAll (requests ++ more) = (h.askAll requests).askAll more :=
  List.foldl_append

end HtmlTape
