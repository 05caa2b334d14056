import HtmlTape.Proofs.Code.Read
import HtmlTape.Pull.Walk

/-!
# Walking trees

A reading (`Reading`) says what a visitor does at the trees themselves: what it answers at each
node, and what it does when an element is left.  A visitor that follows a reading at every cursor
(`Visitor.Follows`) takes a walk through a document that spells trees exactly as the reading goes
through the trees (`Visitor.Follows.walks_forest`): each node before what is inside of it, and
nothing of what is passed over.

The cursor of a walk holds the frame of each list that is still to be read on (`Cursor.At`); what
the visitor and the inner lists do above that frame does not matter.
-/

namespace HtmlTape

variable {σ : Type} {d : Document}

/-! ### Cursors -/

/-- The cursor has a frame for the list of nodes, and other frames below it. -/
structure Cursor.At (c : Cursor) (nodes : Nodes) (below : List Frame) (frame : Frame) : Prop where
  take : c.frames.take nodes.depth = below
  get : c.frames[nodes.depth]? = some frame
  id : frame.id = nodes.id

namespace Cursor.At

variable {c : Cursor} {nodes : Nodes} {below : List Frame} {frame frame' : Frame} {start : Nat}

theorem frame_eq (h : c.At nodes below frame) : c.frame nodes = .ok frame := by
  rw [Cursor.frame, h.get]
  exact if_pos h.id

theorem length_below (h : c.At nodes below frame) : below.length = nodes.depth := by
  have hlt : nodes.depth < c.frames.length := (List.getElem?_eq_some_iff.1 h.get).1
  rw [← h.take, List.length_take]
  omega

theorem of_frames {c' : Cursor} (h : c.At nodes below frame) (hid : frame'.id = nodes.id)
    (hframes : c'.frames = below ++ [frame']) : c'.At nodes below frame' := by
  refine ⟨?_, ?_, hid⟩
  · rw [hframes, List.take_left' h.length_below]
  · rw [hframes, ← h.length_below, List.getElem?_append_right (Nat.le_refl _), Nat.sub_self]
    rfl

theorem withFrame (h : c.At nodes below frame) (hid : frame'.id = nodes.id) :
    (c.withFrame nodes frame').At nodes below frame' :=
  h.of_frames hid (by rw [Cursor.withFrame, h.take])

theorem ownerFrame (h : c.At nodes below frame) (hcurrent : frame.current = some start) :
    c.ownerFrame ⟨nodes, start⟩ = .ok frame := by
  rw [Cursor.ownerFrame, h.frame_eq]
  show (if frame.current ≠ some start then _ else _) = _
  rw [if_neg (not_not_intro hcurrent)]
  rfl

/-- The frame of a list is the last one below that of a list inside of it. -/
theorem of_inner {inner : Nodes} {frame' : Frame} (h : c.At inner (below ++ [frame]) frame')
    (hdepth : inner.depth = nodes.depth + 1) (hid : frame.id = nodes.id) :
    c.At nodes below frame := by
  have hlength : below.length = nodes.depth := by
    have := h.length_below
    rw [List.length_append, hdepth] at this
    exact Nat.succ.inj this
  have htake : c.frames.take (nodes.depth + 1) = below ++ [frame] := hdepth ▸ h.take
  refine ⟨?_, ?_, hid⟩
  · rw [← Nat.min_eq_left (Nat.le_succ nodes.depth), ← List.take_take, htake,
      List.take_left' hlength]
  · rw [← List.getElem?_take_of_lt (Nat.lt_succ_self nodes.depth), htake, ← hlength,
      List.getElem?_append_right (Nat.le_refl _), Nat.sub_self]
    rfl

/-- The children of an element are asked for: their frame is on top, and nothing below the frame
of the element's own list has changed. -/
theorem children (h : c.At nodes below frame) (hcurrent : frame.current = some start)
    (hstage : frame.stage ≠ .children) {first stop : Nat}
    (hwindow : Element.window ⟨nodes, start⟩ d = .ok (first, stop)) :
    ∃ inner c', c.children d ⟨nodes, start⟩ = .ok (inner, c') ∧
      inner.depth = nodes.depth + 1 ∧ c'.At inner (below ++ [{ frame with stage := .children }])
        ⟨inner.id, false, first, stop, none, .fresh⟩ := by
  have hlength : (below ++ [{ frame with stage := .children }]).length = nodes.depth + 1 := by
    rw [List.length_append, h.length_below]
    rfl
  refine ⟨⟨nodes.depth + 1, c.nextId⟩, ⟨below ++ [{ frame with stage := .children }] ++
    [⟨c.nextId, false, first, stop, none, .fresh⟩], (c.nextId + 1) % Cursor.idCount⟩, ?_, rfl,
    ?_, ?_, rfl⟩
  · rw [Cursor.children, hwindow]
    show Except.bind (c.ownerFrame ⟨nodes, start⟩) _ = _
    rw [h.ownerFrame hcurrent]
    show (if frame.stage = .children then _ else _) = _
    rw [if_neg hstage, Cursor.withFrame, h.take]
    rfl
  · exact List.take_left' hlength
  · show (below ++ [_] ++ [_])[nodes.depth + 1]? = _
    rw [List.getElem?_append_right (Nat.le_of_eq hlength), hlength, Nat.sub_self]
    rfl

theorem attributes (h : c.At nodes below frame) (hcurrent : frame.current = some start)
    (hstage : frame.stage ≠ .children) :
    ∃ c', c.attributes d ⟨nodes, start⟩ =
        .ok (⟨⟨nodes, start⟩, Element.groups ⟨nodes, start⟩ d⟩, c') ∧
      c'.At nodes below { frame with stage := .attributes } ∧
      c'.unreadAttributes ⟨⟨nodes, start⟩, Element.groups ⟨nodes, start⟩ d⟩ =
        .ok (Element.groups ⟨nodes, start⟩ d) := by
  have hlt : nodes.depth < c.frames.length := (List.getElem?_eq_some_iff.1 h.get).1
  have hset : Cursor.At { c with
      frames := c.frames.set nodes.depth { frame with stage := .attributes } } nodes below
      { frame with stage := .attributes } := by
    refine ⟨?_, List.getElem?_set_self hlt, h.id⟩
    rw [← h.take]
    exact List.take_set_of_le (Nat.le_refl _)
  refine ⟨_, ?_, hset, ?_⟩
  · rw [Cursor.attributes, h.ownerFrame hcurrent]
    show (if frame.stage = .children then _ else _) = _
    rw [if_neg hstage]
    rfl
  · rw [Cursor.unreadAttributes, hset.ownerFrame hcurrent]
    rfl

theorem next_end (h : c.At nodes below frame) (hend : frame.stop ≤ frame.pc) :
    ∃ c', c.next d nodes = .ok (none, c') ∧ c'.At nodes below frame := by
  refine ⟨c.withFrame nodes frame, ?_, h.withFrame h.id⟩
  rw [Cursor.next, h.frame_eq]
  show Except.bind (frame.next d nodes) _ = _
  rw [Frame.next, if_pos hend]
  rfl

end Cursor.At

/-! ### Nodes -/

/-- The node that is read where a tree starts. -/
def Tree.node (nodes : Nodes) (start : Nat) : Tree Quote → Node
  | .doctype => .doctype
  | .text q => .text q.text
  | .raw q => .raw q.text
  | .element .. => .element ⟨nodes, start⟩

/-- The frame after a tree was read. -/
def Frame.after (frame : Frame) (tree : Tree Quote) : Frame :=
  match tree with
  | .element .. =>
    { frame with
      pc := frame.pc + Instruction.totalWidth tree.instructions
      current := some frame.pc
      stage := .fresh }
  | _ => { frame with pc := frame.pc + Instruction.totalWidth tree.instructions }

theorem Frame.pc_after (frame : Frame) (tree : Tree Quote) :
    (frame.after tree).pc = frame.pc + Instruction.totalWidth tree.instructions := by
  cases tree <;> rfl

theorem Frame.stop_after (frame : Frame) (tree : Tree Quote) :
    (frame.after tree).stop = frame.stop := by
  cases tree <;> rfl

theorem Frame.id_after (frame : Frame) (tree : Tree Quote) :
    (frame.after tree).id = frame.id := by
  cases tree <;> rfl

theorem Frame.next_tree {frame : Frame} {tree : Tree Quote} {nodes : Nodes}
    (hsound : tree.Sound d.names d.pool) (hhas : d.Has frame.pc tree.instructions)
    (hlt : frame.pc < frame.stop) :
    frame.next d nodes = .ok (some (tree.node nodes frame.pc), frame.after tree) := by
  rw [Frame.next, if_neg (Nat.not_le.2 hlt)]
  cases tree with
  | doctype => rw [hhas.instruction?]; rfl
  | text q => rw [hhas.instruction?]; simp only; rw [Document.literal_eq_ok hsound]; rfl
  | raw q => rw [hhas.instruction?]; simp only; rw [Document.literal_eq_ok hsound]; rfl
  | element name groups children =>
    have hstart := hhas
    rw [Tree.instructions, elementInstructions.eq_def] at hstart
    rw [hstart.instruction?, Frame.after, Tree.instructions, elementInstructions.eq_def,
      Instruction.totalWidth_cons]
    rfl

theorem Cursor.At.next_tree {c : Cursor} {nodes : Nodes} {below : List Frame} {frame : Frame}
    {tree : Tree Quote} (h : c.At nodes below frame) (hsound : tree.Sound d.names d.pool)
    (hhas : d.Has frame.pc tree.instructions) (hlt : frame.pc < frame.stop) :
    ∃ c', c.next d nodes = .ok (some (tree.node nodes frame.pc), c') ∧
      c'.At nodes below (frame.after tree) := by
  refine ⟨c.withFrame nodes (frame.after tree), ?_,
    h.withFrame ((Frame.id_after frame tree).trans h.id)⟩
  rw [Cursor.next, h.frame_eq]
  show Except.bind (frame.next d nodes) _ = _
  rw [Frame.next_tree hsound hhas hlt]
  rfl

/-! ### Readings -/

/-- What a visitor does at trees: at each node, where the depth is told, and when an element was
read. -/
structure Reading (σ : Type) where
  enter : Nat → Tree Quote → σ → Verdict × σ
  leave : ElementName → σ → σ

mutual

def Reading.tree (ρ : Reading σ) (depth : Nat) : Tree Quote → σ → Bool × σ
  | .element name groups children, s =>
    match ρ.enter depth (.element name groups children) s with
    | (.stop, s) => (false, s)
    | (.skip, s) => (true, s)
    | (.descend, s) =>
      match ρ.forest (depth + 1) children s with
      | (true, s) => (true, ρ.leave name s)
      | (false, s) => (false, s)
  | .doctype, s => ((ρ.enter depth .doctype s).1 != .stop, (ρ.enter depth .doctype s).2)
  | .text q, s => ((ρ.enter depth (.text q) s).1 != .stop, (ρ.enter depth (.text q) s).2)
  | .raw q, s => ((ρ.enter depth (.raw q) s).1 != .stop, (ρ.enter depth (.raw q) s).2)

def Reading.forest (ρ : Reading σ) (depth : Nat) : List (Tree Quote) → σ → Bool × σ
  | [], s => (true, s)
  | tree :: rest, s =>
    match ρ.tree depth tree s with
    | (true, s) => ρ.forest depth rest s
    | (false, s) => (false, s)

end

mutual

/-- How many steps a walk through a tree takes at most: one for each node, and one for the end of
each element. -/
def Tree.steps : Tree Quote → Nat
  | .element _ _ children => Tree.stepsAll children + 2
  | .doctype | .text _ | .raw _ => 1

def Tree.stepsAll : List (Tree Quote) → Nat
  | [] => 0
  | tree :: rest => tree.steps + Tree.stepsAll rest

end

theorem Tree.stepsAll_cons_le {tree : Tree Quote} {rest : List (Tree Quote)}
    (htree : tree.steps ≤ 2 * Instruction.totalWidth tree.instructions)
    (hrest : Tree.stepsAll rest ≤ 2 * Instruction.totalWidth (Tree.instructionsAll rest)) :
    Tree.stepsAll (tree :: rest) ≤
      2 * Instruction.totalWidth (Tree.instructionsAll (tree :: rest)) := by
  rw [Tree.stepsAll, Tree.instructionsAll, Instruction.totalWidth_append]
  omega

/-- **There are no more steps than twice the words.** -/
theorem Tree.stepsAll_le {names : Names} {pool : String} (forest : List (Tree Quote)) :
    Tree.SoundAll names pool forest →
      Tree.stepsAll forest ≤ 2 * Instruction.totalWidth (Tree.instructionsAll forest) := by
  induction forest using Tree.forest_induction with
  | nil => intro _; exact Nat.le_refl 0
  | doctype rest ih =>
    intro h
    exact Tree.stepsAll_cons_le (Nat.le_succ 1) (ih h.2)
  | text q rest ih =>
    intro h
    exact Tree.stepsAll_cons_le (Nat.le_add_left 1 5) (ih h.2)
  | raw q rest ih =>
    intro h
    exact Tree.stepsAll_cons_le (Nat.le_add_left 1 5) (ih h.2)
  | element name groups children rest ih₁ ih₂ =>
    intro h
    obtain ⟨⟨_, _, _, hvoid, hchildren⟩, hrest⟩ := h
    have hinside := ih₁ hchildren
    refine Tree.stepsAll_cons_le ?_ (ih₂ hrest)
    rw [Tree.steps, Tree.instructions]
    by_cases hv : name.kind.isVoid
    · rw [if_pos hv, hvoid hv, elementInstructions.eq_def, Instruction.totalWidth_cons]
      show 0 + 2 ≤ 2 * (3 + _)
      omega
    · rw [if_neg hv, elementInstructions.eq_def, Instruction.totalWidth_cons,
        Instruction.totalWidth_append, Instruction.totalWidth_append,
        Instruction.totalWidth_cons]
      show _ ≤ 2 * (3 + (_ + (2 + _ + _)))
      omega

/-- The visitor does at every cursor what the reading says, and leaves the frames of the walk
alone, but for the stage of the innermost one. -/
structure Visitor.Follows (v : Visitor σ) (d : Document) (ρ : Reading σ) : Prop where
  enter : ∀ {c : Cursor} {nodes : Nodes} {below : List Frame} {frame : Frame}
    {tree : Tree Quote} (depth : Nat) (s : σ), c.At nodes below (frame.after tree) →
    tree.Sound d.names d.pool → d.Has frame.pc tree.instructions →
    ∃ c' stage, v.enter c depth (tree.node nodes frame.pc) s =
        .ok ((ρ.enter depth tree s).1, c', (ρ.enter depth tree s).2) ∧
      c'.At nodes below { frame.after tree with stage } ∧
      ((frame.after tree).stage ≠ .children → stage ≠ .children)
  leave : ∀ {e : Element} (s : σ), (d.names.elementText? (e.name d)).isSome →
    v.leave e s = .ok (ρ.leave (e.name d) s)

/-! ### Walks -/

namespace Document

variable {v : Visitor σ} {c : Cursor} {visit : Visit} {outer : List Visit} {s s' : σ}

theorem walkFrom_stop {c₁ c₂ : Cursor} {node : Node}
    (hnext : c.next d visit.nodes = .ok (some node, c₁))
    (henter : v.enter c₁ outer.length node s = .ok (.stop, c₂, s')) (n : Nat) :
    d.walkFrom v (n + 1) c (visit :: outer) s = .ok (c₂, s') := by
  rw [walkFrom, hnext]
  show Except.bind (v.enter c₁ outer.length node s) _ = _
  rw [henter]
  rfl

theorem walkFrom_skip {c₁ c₂ : Cursor} {node : Node}
    (hnext : c.next d visit.nodes = .ok (some node, c₁))
    (henter : v.enter c₁ outer.length node s = .ok (.skip, c₂, s')) (n : Nat) :
    d.walkFrom v (n + 1) c (visit :: outer) s = d.walkFrom v n c₂ (visit :: outer) s' := by
  rw [walkFrom, hnext]
  show Except.bind (v.enter c₁ outer.length node s) _ = _
  rw [henter]
  cases node <;> rfl

theorem walkFrom_leaf {c₁ c₂ : Cursor} {node : Node} {verdict : Verdict}
    (hnext : c.next d visit.nodes = .ok (some node, c₁))
    (henter : v.enter c₁ outer.length node s = .ok (verdict, c₂, s'))
    (hnode : ∀ e, node ≠ .element e) (hverdict : verdict ≠ .stop) (n : Nat) :
    d.walkFrom v (n + 1) c (visit :: outer) s = d.walkFrom v n c₂ (visit :: outer) s' := by
  rw [walkFrom, hnext]
  show Except.bind (v.enter c₁ outer.length node s) _ = _
  rw [henter]
  cases node with
  | element e => exact absurd rfl (hnode e)
  | _ => cases verdict <;> first | rfl | exact absurd rfl hverdict

theorem walkFrom_descend {c₁ c₂ c₃ : Cursor} {e : Element} {inner : Nodes}
    (hnext : c.next d visit.nodes = .ok (some (.element e), c₁))
    (henter : v.enter c₁ outer.length (.element e) s = .ok (.descend, c₂, s'))
    (hchildren : c₂.children d e = .ok (inner, c₃)) (n : Nat) :
    d.walkFrom v (n + 1) c (visit :: outer) s =
      d.walkFrom v n c₃ (⟨inner, some e⟩ :: visit :: outer) s' := by
  rw [walkFrom, hnext]
  show Except.bind (v.enter c₁ outer.length (.element e) s) _ = _
  rw [henter]
  show Except.bind (c₂.children d e) _ = _
  rw [hchildren]
  rfl

/-- One step of a walk at the end of the nodes inside of an element. -/
theorem walkFrom_end {c₁ : Cursor} {nodes : Nodes} {e : Element}
    (hnext : c.next d nodes = .ok (none, c₁)) (hleave : v.leave e s = .ok s') (n : Nat) :
    d.walkFrom v (n + 1) c (⟨nodes, some e⟩ :: outer) s = d.walkFrom v n c₁ outer s' := by
  rw [walkFrom, hnext]
  show Except.bind (v.leave e s) _ = _
  rw [hleave]
  rfl

theorem walkFrom_last {c₁ : Cursor} {nodes : Nodes}
    (hnext : c.next d nodes = .ok (none, c₁)) (n : Nat) :
    d.walkFrom v (n + 1) c [⟨nodes, none⟩] s = .ok (c₁, s) := by
  rw [walkFrom, hnext]
  cases n <;> rfl

/-- A walk through instructions that stand where a list is read on takes at most `cost` steps and
changes the state by `run`.  It goes on behind the instructions if `run` says so, and else it
ends there. -/
def Walks (d : Document) (v : Visitor σ) (is : List Instruction) (cost : Nat)
    (run : Nat → σ → Bool × σ) : Prop :=
  ∀ ⦃c : Cursor⦄ ⦃nodes : Nodes⦄ ⦃below : List Frame⦄ ⦃frame : Frame⦄
    (element : Option Element) (outer : List Visit) (s : σ) (n : Nat),
    c.At nodes below frame → d.Has frame.pc is →
    frame.pc + Instruction.totalWidth is ≤ frame.stop → cost ≤ n →
    match run outer.length s with
    | (true, s') => ∃ (c' : Cursor) (frame' : Frame) (n' : Nat), c'.At nodes below frame' ∧
        frame'.pc = frame.pc + Instruction.totalWidth is ∧ frame'.stop = frame.stop ∧
        n ≤ n' + cost ∧ d.walkFrom v n c (⟨nodes, element⟩ :: outer) s =
          d.walkFrom v n' c' (⟨nodes, element⟩ :: outer) s'
    | (false, s') => ∃ c', d.walkFrom v n c (⟨nodes, element⟩ :: outer) s = .ok (c', s')

namespace Walks

variable {is js : List Instruction} {a b : Nat} {f g : Nat → σ → Bool × σ}

theorem nil : d.Walks v [] 0 fun _ s => (true, s) := by
  intro c nodes below frame element outer s n h _ _ _
  exact ⟨c, frame, n, h, rfl, rfl, Nat.le_refl n, rfl⟩

theorem append (hf : d.Walks v is a f) (hg : d.Walks v js b g) :
    d.Walks v (is ++ js) (a + b) fun depth s =>
      match f depth s with
      | (true, s) => g depth s
      | (false, s) => (false, s) := by
  intro c nodes below frame element outer s n h hhas hle hn
  rw [Instruction.totalWidth_append] at hle ⊢
  have hfirst := hf element outer s n h hhas.left (by omega) (by omega)
  simp only
  cases hrun : f outer.length s with
  | mk goes s₁ =>
    rw [hrun] at hfirst
    cases goes with
    | false => exact hfirst
    | true =>
      obtain ⟨c₁, frame₁, n₁, h₁, hpc₁, hstop₁, hn₁, hwalk₁⟩ := hfirst
      have hhas₁ : d.Has frame₁.pc js := hpc₁ ▸ hhas.right
      have hsecond := hg element outer s₁ n₁ h₁ hhas₁ (by omega) (by omega)
      simp only
      cases hrun₁ : g outer.length s₁ with
      | mk goes s₂ =>
        rw [hrun₁] at hsecond
        cases goes with
        | false =>
          obtain ⟨c₂, hwalk₂⟩ := hsecond
          exact ⟨c₂, hwalk₁.trans hwalk₂⟩
        | true =>
          obtain ⟨c₂, frame₂, n₂, h₂, hpc₂, hstop₂, hn₂, hwalk₂⟩ := hsecond
          exact ⟨c₂, frame₂, n₂, h₂, by omega, hstop₂.trans hstop₁, by omega,
            hwalk₁.trans hwalk₂⟩

end Walks

end Document

namespace Visitor.Follows

variable {v : Visitor σ} {ρ : Reading σ}

theorem walks_leaf (hv : v.Follows d ρ) {tree : Tree Quote}
    (hsound : tree.Sound d.names d.pool)
    (hleaf : ∀ nodes start e, tree.node nodes start ≠ .element e) :
    d.Walks v tree.instructions 1 fun depth s =>
      ((ρ.enter depth tree s).1 != .stop, (ρ.enter depth tree s).2) := by
  intro c nodes below frame element outer s n h hhas hle hn
  obtain ⟨n, rfl⟩ := Nat.exists_eq_add_of_le' hn
  have hpos := tree.totalWidth_pos
  obtain ⟨c₁, hnext, h₁⟩ := h.next_tree hsound hhas (by omega)
  obtain ⟨c₂, stage, henter, h₂, _⟩ := hv.enter outer.length s h₁ hsound hhas
  simp only
  by_cases hstop : (ρ.enter outer.length tree s).1 = .stop
  · rw [hstop] at henter ⊢
    exact ⟨c₂, Document.walkFrom_stop hnext henter n⟩
  · rw [show ((ρ.enter outer.length tree s).1 != .stop) = true from bne_iff_ne.2 hstop]
    exact ⟨c₂, _, n, h₂, frame.pc_after tree, frame.stop_after tree, Nat.le_refl _,
      Document.walkFrom_leaf hnext henter (hleaf _ _) hstop n⟩

theorem walks_element (hv : v.Follows d ρ) {name : ElementName} {groups : List (Group Quote)}
    {children : List (Tree Quote)}
    (hsound : (Tree.element name groups children).Sound d.names d.pool)
    (hchildren : d.Walks v (Tree.instructionsAll children) (Tree.stepsAll children)
      fun depth s => ρ.forest depth children s) :
    d.Walks v (Tree.element name groups children).instructions (Tree.stepsAll children + 2)
      fun depth s => ρ.tree depth (.element name groups children) s := by
  intro c nodes below frame element outer s n h hhas hle hn
  obtain ⟨hknown, _, _, hvoid, _⟩ := id hsound
  obtain ⟨n, rfl⟩ := Nat.exists_eq_add_of_le' (Nat.le_trans (Nat.le_add_left 1 _) hn)
  have hpos := (Tree.element name groups children).totalWidth_pos
  obtain ⟨c₁, hnext, h₁⟩ := h.next_tree hsound hhas (by omega)
  obtain ⟨c₂, stage, henter, h₂, hstage⟩ := hv.enter outer.length s h₁ hsound hhas
  have hpc := frame.pc_after (.element name groups children)
  have hstop := frame.stop_after (.element name groups children)
  simp only [Reading.tree]
  cases hrun : ρ.enter outer.length (.element name groups children) s with
  | mk verdict s₁ =>
    rw [hrun] at henter
    cases verdict with
    | stop => exact ⟨c₂, Document.walkFrom_stop hnext henter n⟩
    | skip =>
      exact ⟨c₂, _, n, h₂, hpc, hstop, by omega, Document.walkFrom_skip hnext henter n⟩
    | descend =>
      obtain ⟨first, hwindow, hfirst⟩ := Element.window_eq (e := ⟨nodes, frame.pc⟩) hhas hvoid
      obtain ⟨inner, c₃, hask, hdepth, h₃⟩ :=
        h₂.children rfl (hstage (by simp [Frame.after])) hwindow
      have hnode : c.next d (Visit.mk nodes element).nodes =
          .ok (some (.element ⟨nodes, frame.pc⟩), c₁) := hnext
      have hstep := Document.walkFrom_descend hnode henter hask n
      have hinside := hchildren (some ⟨nodes, frame.pc⟩) (⟨nodes, element⟩ :: outer) s₁ n h₃
        hfirst (Nat.le_refl _) (by omega)
      simp only [List.length_cons] at hinside ⊢
      cases hrun₁ : ρ.forest (outer.length + 1) children s₁ with
      | mk goes s₂ =>
        rw [hrun₁] at hinside
        cases goes with
        | false =>
          obtain ⟨c₄, hwalk⟩ := hinside
          exact ⟨c₄, hstep.trans hwalk⟩
        | true =>
          obtain ⟨c₄, frame₄, n₄, h₄, hpc₄, hstop₄, hn₄, hwalk⟩ := hinside
          -- the one step that is left ends the list of the children
          obtain ⟨n₅, rfl⟩ := Nat.exists_eq_add_of_le' (show 1 ≤ n₄ by omega)
          have hend : frame₄.stop ≤ frame₄.pc := Nat.le_of_eq (hstop₄.trans hpc₄.symm)
          obtain ⟨c₅, hnext₅, h₅⟩ := h₄.next_end hend
          have hname : Element.name ⟨nodes, frame.pc⟩ d = name := by
            rw [Tree.instructions] at hhas
            exact Element.name_eq hhas
          have hleave : v.leave ⟨nodes, frame.pc⟩ s₂ = .ok (ρ.leave name s₂) := by
            rw [← hname] at hknown ⊢
            exact hv.leave s₂ hknown
          refine ⟨c₅, _, n₅, h₅.of_inner hdepth h₂.id, hpc, hstop, by omega, ?_⟩
          rw [hstep, hwalk, Document.walkFrom_end hnext₅ hleave]

/-- **A walk goes through trees as the reading does** that the visitor follows. -/
theorem walks_forest (hv : v.Follows d ρ) (forest : List (Tree Quote)) :
    Tree.SoundAll d.names d.pool forest →
      d.Walks v (Tree.instructionsAll forest) (Tree.stepsAll forest) fun depth s =>
        ρ.forest depth forest s := by
  induction forest using Tree.forest_induction with
  | nil => intro _; exact Document.Walks.nil
  | doctype rest ih =>
    intro h
    exact (hv.walks_leaf h.1 fun _ _ _ => by simp [Tree.node]).append (ih h.2)
  | text q rest ih =>
    intro h
    exact (hv.walks_leaf h.1 fun _ _ _ => by simp [Tree.node]).append (ih h.2)
  | raw q rest ih =>
    intro h
    exact (hv.walks_leaf h.1 fun _ _ _ => by simp [Tree.node]).append (ih h.2)
  | element name groups children rest ih₁ ih₂ =>
    intro h
    exact (hv.walks_element h.1 (ih₁ h.1.children)).append (ih₂ h.2)

/-- **A walk through a document comes to an end**, with what the reading of its trees answers. -/
theorem walkWith (hv : v.Follows d ρ) {forest : List (Tree Quote)} (hd : d.Spells forest)
    (s : σ) : ∃ c, d.walkWith v (Cursor.start d) Nodes.document s =
      .ok (c, (ρ.forest 0 forest s).2) := by
  have h : (Cursor.start d).At Nodes.document [] ⟨0, true, 0, d.code.size, none, .fresh⟩ :=
    ⟨rfl, rfl, rfl⟩
  have hsteps := Tree.stepsAll_le forest hd.sound
  have hsize := hd.size
  have hwalk := hv.walks_forest forest hd.sound none [] s d.walkSteps h hd.has
    (Nat.le_of_eq (by rw [hsize, Nat.zero_add])) (by rw [Document.walkSteps]; omega)
  simp only [List.length_nil] at hwalk
  cases hrun : ρ.forest 0 forest s with
  | mk goes s' =>
    rw [hrun] at hwalk
    cases goes with
    | false => exact hwalk
    | true =>
      obtain ⟨c', frame', n', h', hpc, hstop, hn, hwalk⟩ := hwalk
      obtain ⟨n, rfl⟩ := Nat.exists_eq_add_of_le' (show 1 ≤ n' by
        rw [Document.walkSteps] at hn
        omega)
      have hend : frame'.stop ≤ frame'.pc :=
        Nat.le_of_eq (by rw [hpc, hstop, hsize, Nat.zero_add])
      obtain ⟨c₁, hnext, _⟩ := h'.next_end hend
      exact ⟨c₁, hwalk.trans (Document.walkFrom_last hnext n)⟩

end Visitor.Follows

end HtmlTape
