import HtmlTape.Proofs.Pull.Rows
import HtmlTape.Proofs.Pull.Tour
import Mathlib.Logic.Relation

/-!
# A walk is a tour

A visitor that looks at the nodes it is shown (`Visitor.Looks`) may answer as it likes, and may ask
for the attributes of any element that it can still ask.  Such requests leave the lists of a
traversal where they are (`Document.Asked.keeps`).  So the walk takes a tour of the forest that
stands where its list is read on, and the visitor meets the nodes of the tour one after another
(`Visitor.Looks.tours`); it never runs out of steps and never asks for something that it does not
get.

From the nodes of a document, and from the children of any of its elements, a walk thus visits
exactly the nodes that the answers of the visitor leave (`Recording.walks_of_madeBy`).
-/

namespace HtmlTape

variable {σ : Type} {d : Document}

/-! ### What requests leave alone -/

/-- The frames are the same, but perhaps for a request for attributes. -/
structure Frame.Like (f g : Frame) : Prop where
  eq : { f with stage := g.stage } = g
  stage : f.stage = .children ↔ g.stage = .children

namespace Frame.Like

variable {f g h : Frame}

theorem refl (f : Frame) : f.Like f := ⟨rfl, Iff.rfl⟩

theorem trans (hfg : f.Like g) (hgh : g.Like h) : f.Like h := by
  refine ⟨?_, hfg.stage.trans hgh.stage⟩
  rw [← hgh.eq, ← hfg.eq]

theorem pc (h : f.Like g) : g.pc = f.pc := by rw [← h.eq]

theorem stop (h : f.Like g) : g.stop = f.stop := by rw [← h.eq]

theorem current (h : f.Like g) : g.current = f.current := by rw [← h.eq]

end Frame.Like

/-- The lists with fewer than `k` lists around them are served as before. -/
structure Cursor.Keeps (k : Nat) (c c' : Cursor) : Prop where
  frame : ∀ {nodes : Nodes} {frame : Frame}, nodes.depth < k → c.frame nodes = .ok frame →
    ∃ frame', c'.frame nodes = .ok frame' ∧ frame.Like frame'

namespace Cursor

variable {c c' c'' : Cursor} {nodes : Nodes} {below below' : List Frame} {frame frame' : Frame}
  {k k' : Nat}

namespace Keeps

theorem refl (k : Nat) (c : Cursor) : Keeps k c c := ⟨fun _ h => ⟨_, h, .refl _⟩⟩

theorem trans (h : Keeps k c c') (h' : Keeps k c' c'') : Keeps k c c'' := by
  refine ⟨fun {nodes frame} hlt hframe => ?_⟩
  obtain ⟨frame₁, hframe₁, hlike⟩ := h.frame hlt hframe
  obtain ⟨frame₂, hframe₂, hlike'⟩ := h'.frame hlt hframe₁
  exact ⟨frame₂, hframe₂, hlike.trans hlike'⟩

theorem mono (h : Keeps k' c c') (hle : k ≤ k') : Keeps k c c' :=
  ⟨fun hlt => h.frame (Nat.lt_of_lt_of_le hlt hle)⟩

theorem of_take (h : c.frames.take k = c'.frames.take k) : Keeps k c c' := by
  refine ⟨fun {nodes frame} hlt hframe => ⟨frame, ?_, .refl _⟩⟩
  rw [frame_eq_ok_iff] at hframe ⊢
  rw [← List.getElem?_take_of_lt hlt, ← h, List.getElem?_take_of_lt hlt]
  exact hframe

end Keeps

theorem at_of_frame (h : c.frame nodes = .ok frame) :
    c.At nodes (c.frames.take nodes.depth) frame := by
  obtain ⟨hget, hid⟩ := frame_eq_ok_iff.1 h
  exact ⟨rfl, hget, hid⟩

theorem At.keeps (h : c.At nodes below frame) (h' : c'.At nodes below frame') :
    Keeps nodes.depth c c' :=
  .of_take (h.take.trans h'.take.symm)

theorem keeps_of_attributes {e : Element} {attributes : Attributes}
    (h : c.attributes d e = .ok (attributes, c')) (k : Nat) : Keeps k c c' := by
  obtain ⟨frame, hframe, hstage, -, rfl⟩ := of_attributes_eq_ok h
  refine ⟨fun {nodes frame'} _ hframe' => ?_⟩
  obtain ⟨hget, hid⟩ := frame_eq_ok_iff.1 hframe
  obtain ⟨hget', hid'⟩ := frame_eq_ok_iff.1 hframe'
  by_cases hdepth : e.owner.depth = nodes.depth
  · rw [hdepth] at hget
    obtain rfl : frame = frame' := Option.some.inj (hget.symm.trans hget')
    refine ⟨{ frame with stage := .attributes }, frame_eq_ok_iff.2 ⟨?_, hid'⟩, rfl,
      iff_of_false hstage nofun⟩
    rw [hdepth]
    exact List.getElem?_set_self (List.getElem?_eq_some_iff.1 hget).1
  · refine ⟨frame', frame_eq_ok_iff.2 ⟨?_, hid'⟩, .refl _⟩
    exact (List.getElem?_set_ne hdepth).trans hget'

end Cursor

def Document.Asked (d : Document) : Cursor → Cursor → Prop :=
  Relation.ReflTransGen fun c c' => ∃ e attributes, c.attributes d e = .ok (attributes, c')

/-- **Requests for attributes** leave all lists where they are. -/
theorem Document.Asked.keeps {c c' : Cursor} (h : d.Asked c c') (k : Nat) : c.Keeps k c' := by
  induction h with
  | refl => exact .refl k c
  | tail _ hlast ih =>
    obtain ⟨e, attributes, hask⟩ := hlast
    exact ih.trans (Cursor.keeps_of_attributes hask k)

/-! ### Visitors that look -/

/-- The node was just read from the list. -/
structure Document.JustRead (d : Document) (c : Cursor) (nodes : Nodes) (spot : Spot) : Prop where
  next : ∃ c₀ : Cursor, c₀.next d nodes = .ok (some (spot.tree.node nodes spot.offset), c)
  sound : spot.tree.Sound d.names d.pool
  has : d.Has spot.offset spot.tree.instructions

/-- The visitor answers at every node that was just read, and asks for nothing but attributes. -/
structure Visitor.Looks (v : Visitor σ) (d : Document) : Prop where
  enter : ∀ {c : Cursor} {nodes : Nodes} {spot : Spot} (s : σ), d.JustRead c nodes spot →
    ∃ verdict c' s', v.enter c spot.depth (spot.tree.node nodes spot.offset) s =
      .ok (verdict, c', s') ∧ d.Asked c c'
  leave : ∀ (e : Element) (s : σ), v.leave e s = .ok s

/-- A node that a visitor is shown, with its answer and with the cursors before and after it. -/
structure Meeting where
  spot : Spot
  verdict : Verdict
  nodes : Nodes
  before : Cursor
  after : Cursor

namespace Meeting

def visit (m : Meeting) : Spot × Verdict := (m.spot, m.verdict)

def node (m : Meeting) : Node := m.spot.tree.node m.nodes m.spot.offset

end Meeting

/-- The visitor meets nodes one after another, and its state changes with each of them. -/
inductive Visitor.Meets (v : Visitor σ) (d : Document) : σ → List Meeting → σ → Prop
  | nil (s : σ) : v.Meets d s [] s
  | cons {s s₁ s₂ : σ} {m : Meeting} {meetings : List Meeting}
    (read : d.JustRead m.before m.nodes m.spot)
    (enter : v.enter m.before m.spot.depth m.node s = .ok (m.verdict, m.after, s₁))
    (asked : d.Asked m.before m.after) (rest : v.Meets d s₁ meetings s₂) :
    v.Meets d s (m :: meetings) s₂

namespace Visitor.Meets

variable {v : Visitor σ} {s s₁ s₂ : σ} {as bs : List Meeting}

theorem append (h : v.Meets d s as s₁) (h' : v.Meets d s₁ bs s₂) : v.Meets d s (as ++ bs) s₂ := by
  induction h with
  | nil => exact h'
  | cons read enter asked _ ih => exact .cons read enter asked (ih h')

end Visitor.Meets

/-! ### Walks -/

namespace Tour

variable {depth start : Nat} {tree : Tree Quote} {rest : List (Tree Quote)}
  {visits visits' : List (Spot × Verdict)} {goes : Bool}

theorem append (h : Tour depth start [tree] visits true)
    (h' : Tour depth (start + Instruction.totalWidth tree.instructions) rest visits' goes) :
    Tour depth start (tree :: rest) (visits ++ visits') goes := by
  cases h with
  | skip behind =>
    cases behind
    exact .skip h'
  | descend inside behind =>
    cases behind
    rw [List.append_nil]
    exact .descend inside h'

/-- A tour that ends within one tree does not come to the trees behind it. -/
theorem of_ends (h : Tour depth start [tree] visits false) (rest : List (Tree Quote)) :
    Tour depth start (tree :: rest) visits false := by
  cases h with
  | stop => exact .stop
  | skip behind => cases behind
  | descend inside behind => cases behind
  | within inside => exact .within inside

end Tour

namespace Document

/-- A walk that reads on a list where the trees stand takes a tour of them.  It goes on behind them,
or it ends where the visitor stops. -/
def Tours (d : Document) (v : Visitor σ) (trees : List (Tree Quote)) : Prop :=
  ∀ ⦃c : Cursor⦄ ⦃nodes : Nodes⦄ ⦃frame : Frame⦄ (element : Option Element) (outer : List Visit)
    (s : σ) (n : Nat), c.frame nodes = .ok frame → d.Has frame.pc (Tree.instructionsAll trees) →
    frame.pc + Instruction.totalWidth (Tree.instructionsAll trees) ≤ frame.stop →
    Tree.stepsAll trees ≤ n →
    ∃ (meetings : List Meeting) (c' : Cursor) (s' : σ), v.Meets d s meetings s' ∧
      c.Keeps nodes.depth c' ∧
      ((Tour outer.length frame.pc trees (meetings.map Meeting.visit) true ∧
        ∃ (frame' : Frame) (n' : Nat), c'.frame nodes = .ok frame' ∧
          frame'.pc = frame.pc + Instruction.totalWidth (Tree.instructionsAll trees) ∧
          frame'.stop = frame.stop ∧ n ≤ n' + Tree.stepsAll trees ∧
          d.walkFrom v n c (⟨nodes, element⟩ :: outer) s =
            d.walkFrom v n' c' (⟨nodes, element⟩ :: outer) s') ∨
      (Tour outer.length frame.pc trees (meetings.map Meeting.visit) false ∧
        meetings.getLast?.map Meeting.after = some c' ∧
        d.walkFrom v n c (⟨nodes, element⟩ :: outer) s = .ok (c', s')))

variable {v : Visitor σ} {tree : Tree Quote} {rest : List (Tree Quote)}

namespace Tours

theorem nil : d.Tours v [] := by
  intro c nodes frame element outer s n hframe _ _ _
  exact ⟨[], c, s, .nil s, .refl _ c, .inl ⟨.nil, frame, n, hframe, rfl, rfl, Nat.le_refl n, rfl⟩⟩

theorem cons (hfirst : d.Tours v [tree]) (hrest : d.Tours v rest) : d.Tours v (tree :: rest) := by
  intro c nodes frame element outer s n hframe hhas hle hn
  rw [Tree.instructionsAll] at hhas
  rw [Tree.instructionsAll, Instruction.totalWidth_append] at hle ⊢
  have hsingle : Tree.instructionsAll [tree] = tree.instructions := List.append_nil _
  have hsteps : Tree.stepsAll (tree :: rest) = Tree.stepsAll [tree] + Tree.stepsAll rest := rfl
  rw [hsteps] at hn ⊢
  obtain ⟨as, c₁, s₁, hmeets, hkeeps, ⟨htour, frame₁, n₁, hframe₁, hpc, hstop, hn₁, hwalk⟩ |
      ⟨htour, hlast, hwalk⟩⟩ :=
    hfirst element outer s n hframe (hsingle ▸ hhas.left) (by rw [hsingle]; omega) (by omega)
  · rw [hsingle] at hpc
    obtain ⟨bs, c₂, s₂, hmeets', hkeeps', hends⟩ :=
      hrest element outer s₁ n₁ hframe₁ (hpc ▸ hhas.right) (by omega) (by omega)
    refine ⟨as ++ bs, c₂, s₂, hmeets.append hmeets', hkeeps.trans hkeeps', ?_⟩
    rw [List.map_append]
    rcases hends with ⟨htour', frame₂, n₂, hframe₂, hpc', hstop', hn₂, hwalk'⟩ |
      ⟨htour', hlast, hwalk'⟩
    · exact .inl ⟨htour.append (hpc ▸ htour'), frame₂, n₂, hframe₂, by omega, hstop'.trans hstop,
        by omega, hwalk.trans hwalk'⟩
    · refine .inr ⟨htour.append (hpc ▸ htour'), ?_, hwalk.trans hwalk'⟩
      cases bs with
      | nil => cases hlast
      | cons b bs =>
        rw [List.getLast?_append_of_ne_nil as (List.cons_ne_nil b bs)]
        exact hlast
  · exact ⟨as, c₁, s₁, hmeets, hkeeps, .inr ⟨htour.of_ends rest, hlast, hwalk⟩⟩

end Tours

end Document

namespace Visitor.Looks

variable {v : Visitor σ}

/-- Going into an element, the walk takes a tour of the children.  It comes back to the list of the
element, or it ends inside of the element. -/
theorem walk_children (hv : v.Looks d) {name : ElementName} {groups : List (Group Quote)}
    {children : List (Tree Quote)} {c : Cursor} {nodes : Nodes} {frame : Frame} {start n : Nat}
    (hsound : (Tree.element name groups children).Sound d.names d.pool)
    (hhas : d.Has start (Tree.element name groups children).instructions)
    (hinside : d.Tours v children) (hframe : c.frame nodes = .ok frame)
    (hcurrent : frame.current = some start) (hstage : frame.stage ≠ .children)
    (element : Option Element) (outer : List Visit) (s : σ) (hn : Tree.stepsAll children + 1 ≤ n) :
    ∃ (inner : Nodes) (c₁ : Cursor) (meetings : List Meeting) (c' : Cursor) (s' : σ),
      c.children d ⟨nodes, start⟩ = .ok (inner, c₁) ∧ v.Meets d s meetings s' ∧
      c.Keeps nodes.depth c' ∧
      ((Tour (outer.length + 1) (Tree.inside start (.element name groups children)) children
          (meetings.map Meeting.visit) true ∧
        ∃ (frame' : Frame) (n' : Nat), c'.frame nodes = .ok frame' ∧ frame'.pc = frame.pc ∧
          frame'.stop = frame.stop ∧ n ≤ n' + (Tree.stepsAll children + 1) ∧
          d.walkFrom v n c₁ (⟨inner, some ⟨nodes, start⟩⟩ :: ⟨nodes, element⟩ :: outer) s =
            d.walkFrom v n' c' (⟨nodes, element⟩ :: outer) s') ∨
      (Tour (outer.length + 1) (Tree.inside start (.element name groups children)) children
          (meetings.map Meeting.visit) false ∧
        meetings.getLast?.map Meeting.after = some c' ∧
        d.walkFrom v n c₁ (⟨inner, some ⟨nodes, start⟩⟩ :: ⟨nodes, element⟩ :: outer) s =
          .ok (c', s'))) := by
  have h := Cursor.at_of_frame hframe
  obtain ⟨inner, c₁, hask, hdepth, h₁⟩ := h.children hcurrent hstage
    (Tree.window_eq_inside (e := ⟨nodes, start⟩) hsound hhas)
  have hlt : nodes.depth < inner.depth := by omega
  have h₁' := h₁.of_inner hdepth h.id
  obtain ⟨meetings, c₂, s₂, hmeets, hkeeps, hends⟩ :=
    hinside (some ⟨nodes, start⟩) (⟨nodes, element⟩ :: outer) s n h₁.frame_eq
      (Tree.has_inside hsound hhas) (Nat.le_refl _) (by omega)
  rcases hends with ⟨htour, frame₂, n₂, hframe₂, hpc₂, hstop₂, hn₂, hwalk⟩ | ⟨htour, hlast, hwalk⟩
  · -- the one step that is left ends the list of the children
    obtain ⟨n₂, rfl⟩ := Nat.exists_eq_add_of_le' (show 1 ≤ n₂ by omega)
    obtain ⟨c₃, hnext, h₃⟩ :=
      (Cursor.at_of_frame hframe₂).next_end (Nat.le_of_eq (hstop₂.trans hpc₂.symm))
    have hkeeps₃ := hkeeps.trans ((Cursor.at_of_frame hframe₂).keeps h₃)
    obtain ⟨frame₃, hframe₃, hlike⟩ := hkeeps₃.frame hlt h₁'.frame_eq
    refine ⟨inner, c₁, meetings, c₃, s₂, hask, hmeets,
      (h.keeps h₁').trans (hkeeps₃.mono (Nat.le_of_lt hlt)),
      .inl ⟨htour, frame₃, n₂, hframe₃, hlike.pc, hlike.stop, by omega, ?_⟩⟩
    rw [hwalk, Document.walkFrom_end hnext (hv.leave _ s₂)]
  · exact ⟨inner, c₁, meetings, c₂, s₂, hask, hmeets,
      (h.keeps h₁').trans (hkeeps.mono (Nat.le_of_lt hlt)), .inr ⟨htour, hlast, hwalk⟩⟩

theorem tours_single (hv : v.Looks d) {tree : Tree Quote} (hsound : tree.Sound d.names d.pool)
    (hinside : d.Tours v tree.children) : d.Tours v [tree] := by
  intro c nodes frame element outer s n hframe hhas hle hn
  have hsingle : Tree.instructionsAll [tree] = tree.instructions := List.append_nil _
  rw [hsingle] at hhas hle ⊢
  have hpos := tree.totalWidth_pos
  have hsteps : Tree.stepsAll [tree] = Tree.stepsAll tree.children + 1 ∨
      Tree.stepsAll [tree] = Tree.stepsAll tree.children + 2 := by
    cases tree with
    | element name groups children => exact .inr rfl
    | doctype | text q | raw q => exact .inl rfl
  obtain ⟨n, rfl⟩ := Nat.exists_eq_add_of_le' (show 1 ≤ n by omega)
  have h := Cursor.at_of_frame hframe
  obtain ⟨c₁, hnext, h₁⟩ := h.next_tree hsound hhas (by omega)
  have hread : d.JustRead c₁ nodes ⟨outer.length, frame.pc, tree⟩ := ⟨⟨c, hnext⟩, hsound, hhas⟩
  obtain ⟨verdict, c₂, s₁, henter, hasked⟩ := hv.enter s hread
  let m : Meeting := ⟨⟨outer.length, frame.pc, tree⟩, verdict, nodes, c₁, c₂⟩
  have hmeets : v.Meets d s [m] s₁ := .cons hread henter hasked (.nil s₁)
  have hkeeps : c.Keeps nodes.depth c₂ := (h.keeps h₁).trans (hasked.keeps _)
  obtain ⟨frame₂, hframe₂, hlike⟩ := (hasked.keeps (nodes.depth + 1)).frame (Nat.lt_succ_self _)
    h₁.frame_eq
  have hpc : frame₂.pc = frame.pc + Instruction.totalWidth tree.instructions :=
    hlike.pc.trans (frame.pc_after tree)
  have hstop : frame₂.stop = frame.stop := hlike.stop.trans (frame.stop_after tree)
  cases verdict with
  | stop =>
    exact ⟨[m], c₂, s₁, hmeets, hkeeps, .inr ⟨.stop, rfl, Document.walkFrom_stop hnext henter n⟩⟩
  | skip =>
    exact ⟨[m], c₂, s₁, hmeets, hkeeps, .inl ⟨.skip .nil, frame₂, n, hframe₂, hpc, hstop, by omega,
      Document.walkFrom_skip hnext henter n⟩⟩
  | descend =>
    cases tree with
    | doctype | text q | raw q =>
      exact ⟨[m], c₂, s₁, hmeets, hkeeps, .inl ⟨.singleton .nil, frame₂, n, hframe₂, hpc, hstop,
        by omega, Document.walkFrom_leaf hnext henter nofun nofun n⟩⟩
    | element name groups children =>
      have hcost : Tree.stepsAll [.element name groups children] =
        Tree.stepsAll children + 2 := rfl
      have hcurrent : frame₂.current = some frame.pc := hlike.current
      have hstage : frame₂.stage ≠ .children := fun h => nomatch hlike.stage.2 h
      obtain ⟨inner, c₃, meetings, c₄, s₂, hask, hinner, hkeeps₄, hends⟩ :=
        hv.walk_children hsound hhas hinside hframe₂ hcurrent hstage element outer s₁
          (show Tree.stepsAll children + 1 ≤ n by omega)
      have hnode : c.next d (Visit.mk nodes element).nodes =
          .ok (some (.element ⟨nodes, frame.pc⟩), c₁) := hnext
      have hstep := Document.walkFrom_descend hnode henter hask n
      refine ⟨m :: meetings, c₄, s₂, .cons hread henter hasked hinner, hkeeps.trans hkeeps₄, ?_⟩
      rcases hends with ⟨htour, frame₄, n₄, hframe₄, hpc₄, hstop₄, hn₄, hwalk⟩ |
        ⟨htour, hlast, hwalk⟩
      · exact .inl ⟨.singleton htour, frame₄, n₄, hframe₄, hpc₄.trans hpc, hstop₄.trans hstop,
          by omega, hstep.trans hwalk⟩
      · refine .inr ⟨.within htour, ?_, hstep.trans hwalk⟩
        cases meetings with
        | nil => cases hlast
        | cons m' meetings => exact hlast

/-- **A walk with a visitor that looks is a tour**, wherever a list is read on. -/
theorem tours (hv : v.Looks d) (trees : List (Tree Quote)) :
    Tree.SoundAll d.names d.pool trees → d.Tours v trees := by
  induction trees using Tree.children_induction with
  | nil => exact fun _ => .nil
  | cons tree rest ih₁ ih₂ =>
    exact fun h => .cons (hv.tours_single h.1 (ih₁ h.1.soundAll_children)) (ih₂ h.2)

end Visitor.Looks

/-! ### Whole walks -/

/-- The trees are what is still to be read from a list, and stand at that offset. -/
structure Document.Lists (d : Document) (c : Cursor) (nodes : Nodes) (start : Nat)
    (trees : List (Tree Quote)) : Prop where
  frame : ∃ frame, c.frame nodes = .ok frame ∧ frame.pc = start ∧
    frame.stop = start + Instruction.totalWidth (Tree.instructionsAll trees)
  plot : Plot.In ⟨start, trees⟩ d

namespace Document.Lists

variable {c c' : Cursor} {nodes : Nodes} {start : Nat} {trees : List (Tree Quote)}

theorem document {forest : List (Tree Quote)} (h : d.Spells forest) :
    d.Lists (Cursor.start d) Nodes.document 0 forest :=
  ⟨⟨_, rfl, rfl, h.size.trans (Nat.zero_add _).symm⟩, h.plot⟩

theorem children {e : Element} {name : ElementName} {groups : List (Group Quote)}
    {children : List (Tree Quote)} (h : c.children d e = .ok (nodes, c'))
    (hsound : (Tree.element name groups children).Sound d.names d.pool)
    (hhas : d.Has e.start (Tree.element name groups children).instructions) :
    d.Lists c' nodes (Tree.inside e.start (.element name groups children)) children := by
  have hwindow := Tree.window_eq_inside hsound hhas
  obtain ⟨first, stop, frame, hwindow', hframe, _, rfl, rfl⟩ := Cursor.of_children_eq_ok h
  obtain ⟨rfl, rfl⟩ := Prod.mk.inj (Except.ok.inj (hwindow'.symm.trans hwindow))
  refine ⟨⟨⟨c.nextId, false, _, _, none, .fresh⟩, Cursor.frame_eq_ok_iff.2 ⟨?_, rfl⟩, rfl, rfl⟩,
    Tree.has_inside hsound hhas, hsound.children⟩
  have hlength : (c.withFrame e.owner { frame with stage := .children }).frames.length =
      e.owner.depth + 1 := by
    have hlt := (List.getElem?_eq_some_iff.1 (Cursor.frame_eq_ok_iff.1 hframe).1).1
    rw [Cursor.withFrame, List.length_append, List.length_take_of_le (Nat.le_of_lt hlt)]
    rfl
  rw [← hlength]
  exact List.getElem?_concat_length

theorem asked (h : d.Lists c nodes start trees) (hasked : d.Asked c c') :
    d.Lists c' nodes start trees := by
  obtain ⟨frame, hframe, hpc, hstop⟩ := h.frame
  obtain ⟨frame', hframe', hlike⟩ := (hasked.keeps _).frame (Nat.lt_succ_self _) hframe
  exact ⟨⟨frame', hframe', hlike.pc.trans hpc, hlike.stop.trans hstop⟩, h.plot⟩

end Document.Lists

/-- **A walk from a list comes to an end**, and is a tour of the trees of the list. -/
theorem Visitor.Looks.walkWith {v : Visitor σ} (hv : v.Looks d) {c : Cursor} {nodes : Nodes}
    {start : Nat} {trees : List (Tree Quote)} (h : d.Lists c nodes start trees) (s : σ) :
    ∃ (meetings : List Meeting) (goes : Bool) (c' : Cursor) (s' : σ),
      d.walkWith v c nodes s = .ok (c', s') ∧ v.Meets d s meetings s' ∧
      c.Keeps nodes.depth c' ∧ Tour 0 start trees (meetings.map Meeting.visit) goes ∧
      (goes = false → meetings.getLast?.map Meeting.after = some c') := by
  obtain ⟨frame, hframe, rfl, hstop⟩ := h.frame
  have hsteps := Tree.stepsAll_le trees h.plot.sound
  have hhas : d.Has frame.pc (Tree.instructionsAll trees) := h.plot.has
  have hsize : Instruction.totalWidth (Tree.instructionsAll trees) ≤ d.code.size := by
    obtain ⟨before, after, hcode, _⟩ := hhas
    rw [hcode, List.size_toArray, List.length_append, List.length_append,
      Instruction.length_allWords]
    omega
  obtain ⟨meetings, c₁, s₁, hmeets, hkeeps, hends⟩ :=
    hv.tours trees h.plot.sound none [] s d.walkSteps hframe hhas (Nat.le_of_eq hstop.symm)
      (by rw [Document.walkSteps]; omega)
  rcases hends with ⟨htour, frame₁, n, hframe₁, hpc₁, hstop₁, hn, hwalk⟩ | ⟨htour, hlast, hwalk⟩
  · obtain ⟨n, rfl⟩ := Nat.exists_eq_add_of_le' (show 1 ≤ n by
      rw [Document.walkSteps] at hn
      omega)
    have h₁ := Cursor.at_of_frame hframe₁
    obtain ⟨c₂, hnext, h₂⟩ := h₁.next_end (by omega)
    exact ⟨meetings, true, c₂, s₁, hwalk.trans (Document.walkFrom_last hnext n), hmeets,
      hkeeps.trans (h₁.keeps h₂), htour, fun hends => by cases hends⟩
  · exact ⟨meetings, false, c₁, s₁, hwalk, hmeets, hkeeps, htour, fun _ => hlast⟩

/-- A list of nodes at which nothing was read: that of the document, or the children of one of its
elements, wherever the traversal stands when they are asked for. -/
inductive Document.Handed (d : Document) (forest : List (Tree Quote)) :
    Cursor → Nodes → Nat → List (Tree Quote) → Prop
  | document : d.Handed forest (Cursor.start d) Nodes.document 0 forest
  | children {c c' : Cursor} {e : Element} {nodes : Nodes} {spot : Spot}
    (mem : spot ∈ Tree.spotsAll 0 0 forest) (element : spot.tree.isElement)
    (start : e.start = spot.offset) (asked : c.children d e = .ok (nodes, c')) :
    d.Handed forest c' nodes (spot.tree.inside spot.offset) spot.tree.children
  /-- Requests for attributes may have been made. -/
  | asked {c c' : Cursor} {nodes : Nodes} {start : Nat} {trees : List (Tree Quote)}
    (handed : d.Handed forest c nodes start trees) (asked : d.Asked c c') :
    d.Handed forest c' nodes start trees

theorem Document.Handed.lists {forest trees : List (Tree Quote)} {c : Cursor} {nodes : Nodes}
    {start : Nat} (h : d.Handed forest c nodes start trees) (hd : d.Spells forest) :
    d.Lists c nodes start trees := by
  induction h with
  | document => exact .document hd
  | @children c c' e nodes spot mem element start asked =>
    obtain ⟨hsound, hhas⟩ := Tree.sound_of_mem_spotsAll forest hd.sound hd.has spot mem
    obtain ⟨depth, offset, tree⟩ := spot
    obtain rfl : e.start = offset := start
    cases tree with
    | element name groups children => exact .children asked hsound hhas
    | doctype | text q | raw q => cases element
  | asked _ hasked ih => exact ih.asked hasked

/-- **A walk visits what the answers leave.**  Every recording can be compiled, and every walk
through the document comes to an end without a fault: from the nodes of the document or from the
children of any element, with any visitor that answers every node it is shown and asks for nothing
but attributes.  The visited nodes are those of the forest in order, from the root of each tree on,
without what is inside of the elements that the visitor passes over, and without what comes behind
the first node at which it stops. -/
theorem Recording.walks_of_madeBy {t : Recording} {calls : List SpelledCall}
    (h : t.MadeBy calls) :
    ∃ (draft : Draft Quote) (d : Document),
      Draft.new.requestEach calls = some (draft.map Quote.text) ∧ t.compile = .ok d ∧
      ∀ {c : Cursor} {nodes : Nodes} {start : Nat} {trees : List (Tree Quote)},
        d.Handed draft.trees c nodes start trees → ∀ {σ : Type} (v : Visitor σ), v.Looks d →
        ∀ s : σ, ∃ (meetings : List Meeting) (c' : Cursor) (s' : σ),
          d.walkWith v c nodes s = .ok (c', s') ∧ v.Meets d s meetings s' ∧
          ∃ answer : Spot → Verdict, (∀ m ∈ meetings, answer m.spot = m.verdict) ∧
            meetings.map Meeting.spot =
              Spot.upTo answer (Tree.prunedAll answer 0 start trees) := by
  obtain ⟨draft, d, hcalls, _, hcompile, _, hspells⟩ := h.compile
  refine ⟨draft, d, hcalls, hcompile, fun {c nodes start trees} hhanded σ v hv s => ?_⟩
  have hlists := hhanded.lists hspells
  obtain ⟨meetings, goes, c', s', hwalk, hmeets, _, htour, _⟩ := hv.walkWith hlists s
  obtain ⟨answer, hanswer⟩ := htour.exists_answer hlists.plot.sound
  have hspots := (htour.eq_upTo hanswer).1
  rw [List.map_map] at hspots
  exact ⟨meetings, c', s', hwalk, hmeets, answer,
    fun m hm => hanswer m.visit (List.mem_map_of_mem hm), hspots⟩

/-- A visitor that lists the nodes of a card. -/
theorem Recording.card_walks : card.MadeBy cardCalls ∧ ∃ (draft : Draft Quote) (d : Document),
    Draft.new.requestEach cardCalls = some (draft.map Quote.text) ∧ card.compile = .ok d ∧
    ∃ v : Visitor (List Node), v.Looks d ∧
      ∃ (meetings : List Meeting) (c' : Cursor) (seen : List Node),
        d.walkWith v (Cursor.start d) Nodes.document [] = .ok (c', seen) ∧
        v.Meets d [] meetings seen ∧
        ∃ answer : Spot → Verdict, (∀ m ∈ meetings, answer m.spot = m.verdict) ∧
          meetings.map Meeting.spot =
            Spot.upTo answer (Tree.prunedAll answer 0 0 draft.trees) := by
  obtain ⟨draft, d, hcalls, hcompile, hwalks⟩ := walks_of_madeBy card_madeBy
  let v : Visitor (List Node) :=
    ⟨fun c _ node seen => .ok (.descend, c, seen ++ [node]), fun _ seen => .ok seen⟩
  have hv : v.Looks d := ⟨fun _ _ => ⟨_, _, _, rfl, .refl⟩, fun _ _ => rfl⟩
  exact ⟨card_madeBy, draft, d, hcalls, hcompile, v, hv, hwalks .document v hv []⟩

end HtmlTape
