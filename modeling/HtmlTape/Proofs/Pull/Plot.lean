import HtmlTape.Proofs.Pull.Ledger
import HtmlTape.Proofs.Pull.Walked

/-!
# Where lists of nodes stand

A plot is the place of a list of nodes in the bytecode: the offset of its first node, and the nodes
themselves.  The frame of a list fits its account if the frame stands at the node that is read next
and holds the element that was read last (`Frame.Fits`).  Reading on from a frame that fits gives
the next node of the list, and the frame fits the account again (`Frame.Fits.next`).
-/

namespace HtmlTape

open Ledger (NodeList)

variable {d : Document}

/-! ### The element that was read last -/

/-- The place of the last element among the first nodes of a list. -/
def Tree.lastElement? {τ : Type} (trees : List (Tree τ)) : Nat → Option Nat
  | 0 => none
  | n + 1 => if trees[n]?.any Tree.isElement then some n else lastElement? trees n

theorem Tree.lastElement?_eq_some_iff {τ : Type} {trees : List (Tree τ)} {i : Nat} (n : Nat) :
    Tree.lastElement? trees n = some i ↔ i < n ∧ trees[i]?.any Tree.isElement ∧
      ∀ j, i < j → j < n → ¬ trees[j]?.any Tree.isElement := by
  induction n with
  | zero => simp [lastElement?]
  | succ n ih =>
    rw [lastElement?]
    by_cases hn : trees[n]?.any Tree.isElement
    · rw [if_pos hn]
      constructor
      · intro h
        obtain rfl := Option.some.inj h
        exact ⟨Nat.lt_succ_self n, hn, fun j hlt hle => by omega⟩
      · rintro ⟨hi, _, hlast⟩
        -- an element before the last one would have a later one behind it
        have hin : ¬ i < n := fun hlt => hlast n hlt (Nat.lt_succ_self n) hn
        rw [show n = i by omega]
    · rw [if_neg hn, ih]
      constructor
      · rintro ⟨hi, helement, hlast⟩
        refine ⟨by omega, helement, fun j hij hjn => ?_⟩
        by_cases hj : j = n
        · rwa [hj]
        · exact hlast j hij (by omega)
      · rintro ⟨hi, helement, hlast⟩
        have hin : i ≠ n := fun he => hn (he ▸ helement)
        exact ⟨by omega, helement, fun j hij hjn => hlast j hij (by omega)⟩

/-! ### Plots -/

/-- A list of nodes and the offset of the first of them. -/
structure Plot where
  start : Nat
  trees : List (Tree Quote)

theorem Tree.SoundAll.of_mem {names : Names} {pool : String} {forest : List (Tree Quote)}
    (h : Tree.SoundAll names pool forest) : ∀ tree ∈ forest, tree.Sound names pool := by
  induction forest with
  | nil => intro tree ht; cases ht
  | cons first rest ih =>
    intro tree ht
    rcases List.mem_cons.1 ht with rfl | ht
    · exact h.1
    · exact ih h.2 tree ht

namespace Plot

variable {p : Plot} {i j : Nat}

/-- The offset of the node with so many nodes before it. -/
def offset (p : Plot) (i : Nat) : Nat :=
  p.start + Instruction.totalWidth (Tree.instructionsAll (p.trees.take i))

/-- The nodes stand in the bytecode where the plot says. -/
structure In (p : Plot) (d : Document) : Prop where
  has : d.Has p.start (Tree.instructionsAll p.trees)
  sound : Tree.SoundAll d.names d.pool p.trees

theorem offset_zero (p : Plot) : p.offset 0 = p.start := rfl

theorem offset_succ {tree : Tree Quote} (h : p.trees[i]? = some tree) :
    p.offset (i + 1) = p.offset i + Instruction.totalWidth tree.instructions := by
  rw [offset, offset, List.take_add_one, h, Tree.instructionsAll_append,
    Instruction.totalWidth_append, Nat.add_assoc]
  show _ + (_ + Instruction.totalWidth (tree.instructions ++ [])) = _
  rw [List.append_nil]

theorem offset_length (p : Plot) :
    p.offset p.trees.length = p.start + Instruction.totalWidth (Tree.instructionsAll p.trees) := by
  rw [offset, List.take_length]

theorem offset_of_length_le (h : p.trees.length ≤ i) : p.offset i = p.offset p.trees.length := by
  rw [offset, offset, List.take_of_length_le h, List.take_length]

theorem offset_le (p : Plot) (i : Nat) : p.offset i ≤ p.offset (i + 1) := by
  by_cases hi : i < p.trees.length
  · rw [offset_succ (List.getElem?_eq_getElem hi)]
    exact Nat.le_add_right _ _
  · have hle : p.trees.length ≤ i := Nat.le_of_not_lt hi
    exact Nat.le_of_eq
      ((offset_of_length_le hle).trans (offset_of_length_le (Nat.le_succ_of_le hle)).symm)

/-- **Different nodes start at different offsets.** -/
theorem offset_lt (hi : i < p.trees.length) (hij : i < j) : p.offset i < p.offset j := by
  induction j with
  | zero => exact absurd hij (Nat.not_lt_zero i)
  | succ j ih =>
    by_cases h : i < j
    · exact Nat.lt_of_lt_of_le (ih h) (p.offset_le j)
    · obtain rfl : i = j := by omega
      rw [offset_succ (List.getElem?_eq_getElem hi)]
      exact Nat.lt_add_of_pos_right (Tree.totalWidth_pos _)

theorem eq_of_offset_eq (hi : i < p.trees.length) (hj : j < p.trees.length)
    (h : p.offset i = p.offset j) : i = j := by
  rcases Nat.lt_trichotomy i j with hij | hij | hij
  · exact absurd h (Nat.ne_of_lt (offset_lt hi hij))
  · exact hij
  · exact absurd h.symm (Nat.ne_of_lt (offset_lt hj hij))

/-- There is a further node exactly where the list does not end. -/
theorem offset_lt_iff (p : Plot) (i : Nat) :
    p.offset i < p.offset p.trees.length ↔ i < p.trees.length := by
  refine ⟨fun h => ?_, fun hi => offset_lt hi hi⟩
  by_contra hi
  rw [offset_of_length_le (Nat.le_of_not_lt hi)] at h
  exact Nat.lt_irrefl _ h

theorem In.tree {tree : Tree Quote} (h : p.In d) (hi : p.trees[i]? = some tree) :
    tree.Sound d.names d.pool ∧ d.Has (p.offset i) tree.instructions := by
  refine ⟨h.sound.of_mem tree (List.mem_of_getElem? hi), ?_⟩
  obtain ⟨hlt, rfl⟩ := List.getElem?_eq_some_iff.1 hi
  have hhas := h.has
  rw [← List.take_append_drop i p.trees, Tree.instructionsAll_append,
    List.drop_eq_getElem_cons hlt] at hhas
  exact hhas.right.left

theorem In.children (h : p.In d) {name : ElementName} {groups : List (Group Quote)}
    {children : List (Tree Quote)} (hi : p.trees[i]? = some (.element name groups children))
    {e : Element} (he : e.start = p.offset i) :
    ∃ first, e.window d =
        .ok (first, first + Instruction.totalWidth (Tree.instructionsAll children)) ∧
      In ⟨first, children⟩ d := by
  obtain ⟨hsound, hhas⟩ := h.tree hi
  rw [← he] at hhas
  obtain ⟨first, hwindow, hfirst⟩ := Element.window_eq hhas hsound.2.2.2.1
  exact ⟨first, hwindow, hfirst, hsound.children⟩

end Plot

theorem Document.Spells.plot {forest : List (Tree Quote)} (h : d.Spells forest) :
    Plot.In ⟨0, forest⟩ d :=
  ⟨h.has, h.sound⟩

/-! ### Frames -/

/-- The frame stands where the account of its list says. -/
structure Frame.Fits (frame : Frame) (plot : Plot) (list : NodeList) : Prop where
  isDocument : frame.isDocument = list.outer.isEmpty
  pc : frame.pc = plot.offset list.asked
  stop : frame.stop = plot.offset plot.trees.length
  current : frame.current = (Tree.lastElement? plot.trees list.asked).map plot.offset

namespace Frame.Fits

variable {frame : Frame} {plot : Plot} {list : NodeList}

theorem start (plot : Plot) (list : NodeList) (id : Nat) (hasked : list.asked = 0) :
    Frame.Fits ⟨id, list.outer.isEmpty, plot.start,
      plot.start + Instruction.totalWidth (Tree.instructionsAll plot.trees), none, .fresh⟩
      plot list where
  isDocument := rfl
  pc := by rw [hasked, plot.offset_zero]
  stop := plot.offset_length.symm
  current := by rw [hasked]; rfl

/-- What was asked of the element that was read last does not matter. -/
theorem withStage (h : frame.Fits plot list) (stage : Stage) :
    Frame.Fits { frame with stage } plot list :=
  ⟨h.isDocument, h.pc, h.stop, h.current⟩

theorem pc_lt_stop_iff (h : frame.Fits plot list) :
    frame.pc < frame.stop ↔ list.asked < plot.trees.length := by
  rw [h.pc, h.stop, plot.offset_lt_iff]

/-- The frame holds an element that was read if no element was read after it. -/
theorem current_eq_iff (h : frame.Fits plot list) {i : Nat} (hasked : i < list.asked)
    (helement : plot.trees[i]?.any Tree.isElement = true) :
    frame.current = some (plot.offset i) ↔
      ∀ j, i < j → j < list.asked → ¬ plot.trees[j]?.any Tree.isElement = true := by
  have hlt : ∀ {k : Nat}, plot.trees[k]?.any Tree.isElement = true → k < plot.trees.length := by
    intro k hk
    by_contra hle
    rw [List.getElem?_eq_none (Nat.le_of_not_lt hle)] at hk
    cases hk
  rw [h.current]
  constructor
  · intro hcurrent
    obtain ⟨k, hlast, hoffset⟩ := Option.map_eq_some_iff.1 hcurrent
    obtain ⟨_, hk, hnone⟩ := (Tree.lastElement?_eq_some_iff _).1 hlast
    obtain rfl := Plot.eq_of_offset_eq (hlt hk) (hlt helement) hoffset
    exact hnone
  · intro hnone
    rw [(Tree.lastElement?_eq_some_iff _).2 ⟨hasked, helement, hnone⟩, Option.map_some]

/-- **Reading on from a frame that fits** gives the next node of the list. -/
theorem next (h : frame.Fits plot list) (hplot : plot.In d) (nodes : Nodes) :
    ∃ frame', frame.next d nodes =
        .ok (plot.trees[list.asked]?.map fun tree => tree.node nodes (plot.offset list.asked),
          frame') ∧
      frame'.id = frame.id ∧ frame'.Fits plot { list with asked := list.asked + 1 } := by
  cases hi : plot.trees[list.asked]? with
  | none =>
    have hle : plot.trees.length ≤ list.asked := List.getElem?_eq_none_iff.1 hi
    refine ⟨frame, ?_, rfl, h.isDocument, ?_, h.stop, ?_⟩
    · rw [Frame.next, if_pos]
      · rfl
      · exact Nat.le_of_not_lt fun hlt => absurd (h.pc_lt_stop_iff.1 hlt) (Nat.not_lt.2 hle)
    · rw [h.pc, Plot.offset_of_length_le hle, Plot.offset_of_length_le (Nat.le_succ_of_le hle)]
    · rw [h.current, Tree.lastElement?, hi]
      rfl
  | some tree =>
    obtain ⟨hsound, hhas⟩ := hplot.tree hi
    have hlt : frame.pc < frame.stop :=
      h.pc_lt_stop_iff.2 (List.getElem?_eq_some_iff.1 hi).1
    rw [← h.pc] at hhas
    refine ⟨frame.after tree, ?_, frame.id_after tree, ?_, ?_, ?_, ?_⟩
    · rw [Frame.next_tree hsound hhas hlt, h.pc]
      rfl
    · rw [← h.isDocument]
      cases tree <;> rfl
    · rw [frame.pc_after, h.pc, Plot.offset_succ hi]
    · rw [frame.stop_after, h.stop]
    · show (frame.after tree).current = (Tree.lastElement? plot.trees (list.asked + 1)).map _
      rw [Tree.lastElement?, hi]
      cases tree with
      | element name groups children => exact congrArg some h.pc
      | _ => exact h.current

end Frame.Fits

end HtmlTape
