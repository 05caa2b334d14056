import HtmlTape.Proofs.Code.Read
import HtmlTape.Pull.Walk

/-!
# Tours

The nodes of a forest in the order of a walk, each with the number of elements around it and with
the offset of its bytecode (`Spot`).  `Tree.spotsAll` lists all of them; `Tree.prunedAll` leaves out
what is inside of the elements that are answered by passing over them, and `Spot.upTo` cuts a list
off behind the first node at which the answer is to stop.

A tour (`Tour`) is told without knowing the answers before: each tree is visited before what is
inside of it, and each visit has its answer, on which it depends what comes next.  The nodes of a
tour are the listing that its own answers prune and cut off (`Tour.eq_upTo`), and there are such
answers for every tour because no node is visited twice (`Tour.exists_answer`).
-/

namespace HtmlTape

/-- A node of a forest, with the number of elements around it and the offset of its bytecode. -/
structure Spot where
  depth : Nat
  offset : Nat
  tree : Tree Quote

namespace Tree

def children {τ : Type} : Tree τ → List (Tree τ)
  | .element _ _ children => children
  | .doctype | .text _ | .raw _ => []

/-- The offset of the first node inside of an element that starts at an offset. -/
def inside (start : Nat) : Tree Quote → Nat
  | .element name groups _ =>
    start + 3 + Instruction.totalWidth
      ((groups.map Group.attribute).flatMap AttributeGroup.instructions) +
      if name.kind.isVoid then 1 else 2
  | .doctype | .text _ | .raw _ => start

/-- **Induction over a list of trees**, with what is inside of its first one. -/
@[elab_as_elim]
theorem children_induction {τ : Type} {motive : List (Tree τ) → Prop} (nil : motive [])
    (cons : ∀ tree rest, motive tree.children → motive rest → motive (tree :: rest))
    (trees : List (Tree τ)) : motive trees := by
  induction trees using forest_induction with
  | nil => exact nil
  | doctype rest ih => exact cons .doctype rest nil ih
  | text value rest ih => exact cons (.text value) rest nil ih
  | raw value rest ih => exact cons (.raw value) rest nil ih
  | element name groups children rest ih₁ ih₂ => exact cons _ rest ih₁ ih₂

mutual

def pruned (answer : Spot → Verdict) (depth start : Nat) : Tree Quote → List Spot
  | .element name groups children =>
    ⟨depth, start, .element name groups children⟩ ::
      if answer ⟨depth, start, .element name groups children⟩ = .skip then []
      else prunedAll answer (depth + 1) (inside start (.element name groups children)) children
  | .doctype => [⟨depth, start, .doctype⟩]
  | .text q => [⟨depth, start, .text q⟩]
  | .raw q => [⟨depth, start, .raw q⟩]

def prunedAll (answer : Spot → Verdict) (depth start : Nat) : List (Tree Quote) → List Spot
  | [] => []
  | tree :: rest => tree.pruned answer depth start ++
      prunedAll answer depth (start + Instruction.totalWidth tree.instructions) rest

end

def spotsAll (depth start : Nat) (trees : List (Tree Quote)) : List Spot :=
  prunedAll (fun _ => .descend) depth start trees

variable {answer : Spot → Verdict}

theorem pruned_eq (answer : Spot → Verdict) (depth start : Nat) (tree : Tree Quote) :
    tree.pruned answer depth start = ⟨depth, start, tree⟩ ::
      if answer ⟨depth, start, tree⟩ = .skip then []
      else prunedAll answer (depth + 1) (tree.inside start) tree.children := by
  cases tree with
  | element name groups children => rw [pruned, Tree.children]
  | doctype | text q | raw q => exact congrArg (List.cons _) (ite_self _).symm

theorem spotsAll_cons (depth start : Nat) (tree : Tree Quote) (rest : List (Tree Quote)) :
    spotsAll depth start (tree :: rest) =
      ⟨depth, start, tree⟩ :: (spotsAll (depth + 1) (tree.inside start) tree.children ++
        spotsAll depth (start + Instruction.totalWidth tree.instructions) rest) := by
  rw [spotsAll, prunedAll, pruned_eq]
  rfl

theorem prunedAll_eq_spotsAll (h : ∀ spot, answer spot ≠ .skip) (trees : List (Tree Quote)) :
    ∀ depth start, prunedAll answer depth start trees = spotsAll depth start trees := by
  induction trees using children_induction with
  | nil => exact fun _ _ => rfl
  | cons tree rest ih₁ ih₂ =>
    intro depth start
    rw [prunedAll, pruned_eq, if_neg (h _), spotsAll_cons, ih₁, ih₂]
    rfl

/-! ### Offsets -/

variable {names : Names} {pool : String} {d : Document}

/-- The bytecode of a node has that of the nodes inside of it in its midst. -/
theorem exists_instructions_eq {tree : Tree Quote} (h : tree.Sound names pool) (start : Nat) :
    ∃ before after, tree.instructions = before ++ instructionsAll tree.children ++ after ∧
      start + Instruction.totalWidth before = tree.inside start ∧
      (tree.children ≠ [] → 0 < Instruction.totalWidth before) := by
  cases tree with
  | doctype | text q | raw q => exact ⟨[], _, rfl, rfl, fun hne => absurd rfl hne⟩
  | element name groups children =>
    obtain ⟨_, _, _, hvoid, _⟩ := h
    rw [instructions, inside, Tree.children]
    generalize groups.map Group.attribute = gs
    by_cases hv : name.kind.isVoid
    · rw [if_pos hv, if_pos hv, hvoid hv]
      obtain ⟨first, hall, hwidth⟩ : ∃ first, elementInstructions name gs .void =
          first :: (gs.flatMap AttributeGroup.instructions ++ [.voidEnd]) ∧ first.width = 3 :=
        ⟨_, rfl, rfl⟩
      refine ⟨_, [], ((List.append_nil _).trans (List.append_nil _)).symm, ?_, fun _ => ?_⟩
      · rw [hall, Instruction.totalWidth_cons, Instruction.totalWidth_append, hwidth,
          ← Nat.add_assoc, ← Nat.add_assoc]
        rfl
      · rw [hall, Instruction.totalWidth_cons, hwidth]
        omega
    · rw [if_neg hv, if_neg hv]
      generalize (!children.isEmpty) = flag
      obtain ⟨first, hall, hwidth⟩ : ∃ first,
          elementInstructions name gs (.children flag (instructionsAll children)) =
            first :: (gs.flatMap AttributeGroup.instructions ++
              .startTagEnd flag :: (instructionsAll children ++ [.endTag name])) ∧
          first.width = 3 := ⟨_, rfl, rfl⟩
      refine ⟨first :: (gs.flatMap AttributeGroup.instructions ++ [.startTagEnd flag]),
        [.endTag name], by rw [hall]; simp, ?_, fun _ => ?_⟩
      · rw [Instruction.totalWidth_cons, Instruction.totalWidth_append, hwidth,
          ← Nat.add_assoc, ← Nat.add_assoc]
        rfl
      · rw [Instruction.totalWidth_cons, hwidth]
        omega

theorem inside_le {tree : Tree Quote} (h : tree.Sound names pool) (start : Nat) :
    (tree.children ≠ [] → start < tree.inside start) ∧
      tree.inside start + Instruction.totalWidth (instructionsAll tree.children) ≤
        start + Instruction.totalWidth tree.instructions := by
  obtain ⟨before, after, heq, hinside, hpos⟩ := exists_instructions_eq h start
  rw [heq, Instruction.totalWidth_append, Instruction.totalWidth_append, ← hinside]
  exact ⟨fun hne => Nat.lt_add_of_pos_right (hpos hne), by omega⟩

theorem Sound.soundAll_children {tree : Tree Quote} (h : tree.Sound names pool) :
    SoundAll names pool tree.children := by
  cases tree with
  | element name groups children => exact h.2.2.2.2
  | doctype | text q | raw q => trivial

/-- **The bytecode of what is inside of a node** stands where the node says. -/
theorem has_inside {tree : Tree Quote} {start : Nat} (h : tree.Sound names pool)
    (hhas : d.Has start tree.instructions) :
    d.Has (tree.inside start) (instructionsAll tree.children) := by
  obtain ⟨before, after, heq, hinside, _⟩ := exists_instructions_eq h start
  rw [heq] at hhas
  exact hinside ▸ hhas.left.right

theorem tagEnd_eq {e : Element} {name : ElementName} {gs : List AttributeGroup} {span : Nat}
    {i : Instruction} {rest : List Instruction} (hi : i.isOutside)
    (hhas : d.Has e.start
      (.startTag name span :: (gs.flatMap AttributeGroup.instructions ++ i :: rest))) :
    e.tagEnd d =
        e.start + 3 + Instruction.totalWidth (gs.flatMap AttributeGroup.instructions) ∧
      d.instruction? (e.tagEnd d) = some i := by
  have hend : e.tagEnd d =
      e.start + 3 + Instruction.totalWidth (gs.flatMap AttributeGroup.instructions) :=
    congrArg Prod.snd (Element.groupsFrom_eq hi hhas)
  have htag := Document.Has.right hhas.tail
  exact ⟨hend, hend ▸ htag.instruction?⟩

/-- **The window of an element** is where the bytecode of its children stands. -/
theorem window_eq_inside {e : Element} {name : ElementName} {groups : List (Group Quote)}
    {children : List (Tree Quote)} (h : (Tree.element name groups children).Sound names pool)
    (hhas : d.Has e.start (Tree.element name groups children).instructions) :
    e.window d = .ok (inside e.start (.element name groups children),
      inside e.start (.element name groups children) +
        Instruction.totalWidth (instructionsAll children)) := by
  obtain ⟨_, _, _, hvoid, _⟩ := h
  obtain ⟨first, hwindow, _⟩ := Element.window_eq hhas hvoid
  -- it is known that there is a window, and where it ends
  suffices hfirst : first = inside e.start (.element name groups children) from hfirst ▸ hwindow
  rw [instructions] at hhas
  by_cases hv : name.kind.isVoid
  · rw [if_pos hv] at hhas
    obtain ⟨hend, htag⟩ := tagEnd_eq rfl hhas
    rw [Element.window, htag] at hwindow
    rw [inside, if_pos hv, ← hend]
    exact (congrArg Prod.fst (Except.ok.inj hwindow)).symm
  · rw [if_neg hv] at hhas
    obtain ⟨hend, htag⟩ := tagEnd_eq rfl hhas
    rw [Element.window, htag] at hwindow
    rw [inside, if_neg hv, ← hend]
    exact (congrArg Prod.fst (Except.ok.inj hwindow)).symm

/-- **The nodes of a forest** can be read, and stand at their offsets. -/
theorem sound_of_mem_spotsAll (trees : List (Tree Quote)) :
    ∀ {depth start : Nat}, SoundAll names pool trees → d.Has start (instructionsAll trees) →
      ∀ spot ∈ spotsAll depth start trees,
        spot.tree.Sound names pool ∧ d.Has spot.offset spot.tree.instructions := by
  induction trees using children_induction with
  | nil => exact fun _ _ => nofun
  | cons tree rest ih₁ ih₂ =>
    intro depth start h hhas spot hspot
    rw [spotsAll_cons] at hspot
    rcases List.mem_cons.1 hspot with rfl | hspot
    · exact ⟨h.1, hhas.left⟩
    · rcases List.mem_append.1 hspot with hspot | hspot
      · exact ih₁ h.1.soundAll_children (has_inside h.1 hhas.left) spot hspot
      · exact ih₂ h.2 hhas.right spot hspot

theorem offset_of_mem_spotsAll (trees : List (Tree Quote)) :
    ∀ {depth start : Nat}, SoundAll names pool trees → ∀ spot ∈ spotsAll depth start trees,
      start ≤ spot.offset ∧
        spot.offset < start + Instruction.totalWidth (instructionsAll trees) := by
  induction trees using children_induction with
  | nil => exact fun _ => nofun
  | cons tree rest ih₁ ih₂ =>
    intro depth start h spot hspot
    rw [instructionsAll, Instruction.totalWidth_append]
    have hpos := tree.totalWidth_pos
    rw [spotsAll_cons] at hspot
    rcases List.mem_cons.1 hspot with rfl | hspot
    · exact ⟨Nat.le_refl start, show start < _ by omega⟩
    · rcases List.mem_append.1 hspot with hspot | hspot
      · obtain ⟨hlt, hle⟩ := inside_le h.1 start
        have hne : tree.children ≠ [] := by
          intro hnil
          rw [hnil] at hspot
          cases hspot
        obtain ⟨hfirst, hlast⟩ := ih₁ h.1.soundAll_children spot hspot
        have := hlt hne
        omega
      · obtain ⟨hfirst, hlast⟩ := ih₂ h.2 spot hspot
        omega

/-- **Later nodes have later offsets.** -/
theorem pairwise_spotsAll (trees : List (Tree Quote)) : ∀ {depth start : Nat},
    SoundAll names pool trees →
      (spotsAll depth start trees).Pairwise fun a b => a.offset < b.offset := by
  induction trees using children_induction with
  | nil => exact fun _ => .nil
  | cons tree rest ih₁ ih₂ =>
    intro depth start h
    have hpos := tree.totalWidth_pos
    obtain ⟨hlt, hle⟩ := inside_le h.1 start
    have hinner : ∀ spot ∈ spotsAll (depth + 1) (tree.inside start) tree.children,
        start < spot.offset ∧
          spot.offset < start + Instruction.totalWidth tree.instructions := by
      intro spot hspot
      have hne : tree.children ≠ [] := by
        intro hnil
        rw [hnil] at hspot
        cases hspot
      obtain ⟨hfirst, hlast⟩ := offset_of_mem_spotsAll _ h.1.soundAll_children spot hspot
      exact ⟨Nat.lt_of_lt_of_le (hlt hne) hfirst, Nat.lt_of_lt_of_le hlast hle⟩
    rw [spotsAll_cons]
    refine List.pairwise_cons.2 ⟨fun spot hspot => ?_, List.pairwise_append.2
      ⟨ih₁ h.1.soundAll_children, ih₂ h.2, fun a ha b hb => ?_⟩⟩
    · rcases List.mem_append.1 hspot with hspot | hspot
      · exact (hinner spot hspot).1
      · exact Nat.lt_of_lt_of_le (Nat.lt_add_of_pos_right hpos)
          (offset_of_mem_spotsAll _ h.2 spot hspot).1
    · exact Nat.lt_of_lt_of_le (hinner a ha).2 (offset_of_mem_spotsAll _ h.2 b hb).1

end Tree

/-! ### Stopping early -/

namespace Spot

variable {answer : Spot → Verdict} {spots as : List Spot}

/-- The nodes up to the first one that is answered by stopping. -/
def upTo (answer : Spot → Verdict) : List Spot → List Spot
  | [] => []
  | spot :: spots => if answer spot = .stop then [spot] else spot :: upTo answer spots

theorem upTo_of_ne (h : ∀ spot ∈ spots, answer spot ≠ .stop) : upTo answer spots = spots := by
  induction spots with
  | nil => rfl
  | cons spot spots ih =>
    obtain ⟨hspot, hspots⟩ := List.forall_mem_cons.1 h
    rw [upTo, if_neg hspot, ih hspots]

theorem upTo_append_of_ne (h : ∀ spot ∈ as, answer spot ≠ .stop) (bs : List Spot) :
    upTo answer (as ++ bs) = as ++ upTo answer bs := by
  induction as with
  | nil => rfl
  | cons a as ih =>
    obtain ⟨ha, has⟩ := List.forall_mem_cons.1 h
    rw [List.cons_append, upTo, if_neg ha, ih has, List.cons_append]

theorem mem_of_mem_upTo {spot : Spot} (h : spot ∈ upTo answer spots) : spot ∈ spots := by
  induction spots with
  | nil => exact h
  | cons first spots ih =>
    rw [upTo] at h
    split at h
    · exact List.mem_cons.2 (.inl (List.mem_singleton.1 h))
    · exact List.mem_cons.2 ((List.mem_cons.1 h).imp_right ih)

theorem upTo_of_find?_eq_some {stop : Spot}
    (h : spots.find? (fun spot => answer spot = .stop) = some stop) :
    ∃ before, upTo answer spots = before ++ [stop] := by
  obtain ⟨hstop, before, after, rfl, hbefore⟩ := List.find?_eq_some_iff_append.1 h
  have hgo : ∀ spot ∈ before, answer spot ≠ .stop := by simpa using hbefore
  refine ⟨before, ?_⟩
  rw [upTo_append_of_ne hgo, upTo, if_pos (of_decide_eq_true hstop)]

theorem upTo_append_of_mem {stop : Spot} (hmem : stop ∈ as) (h : answer stop = .stop)
    (bs : List Spot) : upTo answer (as ++ bs) = upTo answer as := by
  induction as with
  | nil => cases hmem
  | cons a as ih =>
    rw [List.cons_append, upTo, upTo]
    by_cases ha : answer a = .stop
    · rw [if_pos ha, if_pos ha]
    · rcases List.mem_cons.1 hmem with rfl | hmem
      · exact absurd h ha
      · rw [if_neg ha, if_neg ha, ih hmem]

end Spot

/-! ### Tours -/

/-- The visits of a tour of a forest, each with its answer, and whether the tour goes on behind the
forest. -/
inductive Tour : Nat → Nat → List (Tree Quote) → List (Spot × Verdict) → Bool → Prop
  | nil {depth start : Nat} : Tour depth start [] [] true
  /-- The tour ends at once. -/
  | stop {depth start : Nat} {tree : Tree Quote} {rest : List (Tree Quote)} :
    Tour depth start (tree :: rest) [(⟨depth, start, tree⟩, .stop)] false
  /-- What is inside of the node is passed over. -/
  | skip {depth start : Nat} {tree : Tree Quote} {rest : List (Tree Quote)}
    {visits : List (Spot × Verdict)} {goes : Bool}
    (behind : Tour depth (start + Instruction.totalWidth tree.instructions) rest visits goes) :
    Tour depth start (tree :: rest) ((⟨depth, start, tree⟩, .skip) :: visits) goes
  /-- The nodes inside of the node are visited, and then those behind it. -/
  | descend {depth start : Nat} {tree : Tree Quote} {rest : List (Tree Quote)}
    {inner visits : List (Spot × Verdict)} {goes : Bool}
    (inside : Tour (depth + 1) (tree.inside start) tree.children inner true)
    (behind : Tour depth (start + Instruction.totalWidth tree.instructions) rest visits goes) :
    Tour depth start (tree :: rest) ((⟨depth, start, tree⟩, .descend) :: (inner ++ visits)) goes
  /-- The tour ends inside of the node. -/
  | within {depth start : Nat} {tree : Tree Quote} {rest : List (Tree Quote)}
    {inner : List (Spot × Verdict)}
    (inside : Tour (depth + 1) (tree.inside start) tree.children inner false) :
    Tour depth start (tree :: rest) ((⟨depth, start, tree⟩, .descend) :: inner) false

namespace Tour

variable {answer : Spot → Verdict} {depth start : Nat} {trees : List (Tree Quote)}
  {visits : List (Spot × Verdict)} {goes : Bool}

/-- **The nodes of a tour** are those of the forest, without what is inside of passed over elements
and without what comes behind the first node at which the tour stops. -/
theorem eq_upTo (h : Tour depth start trees visits goes)
    (hanswer : ∀ visit ∈ visits, answer visit.1 = visit.2) :
    visits.map Prod.fst = Spot.upTo answer (Tree.prunedAll answer depth start trees) ∧
      (goes = true ↔ ∀ spot ∈ Tree.prunedAll answer depth start trees, answer spot ≠ .stop) := by
  induction h with
  | nil => exact ⟨rfl, iff_of_true rfl nofun⟩
  | stop =>
    have hstop := hanswer _ List.mem_cons_self
    rw [Tree.prunedAll, Tree.pruned_eq, List.cons_append, Spot.upTo, if_pos hstop]
    exact ⟨rfl, iff_of_false nofun fun h => h _ List.mem_cons_self hstop⟩
  | skip behind ih =>
    obtain ⟨hskip, hvisits⟩ := List.forall_mem_cons.1 hanswer
    obtain ⟨hmap, hgoes⟩ := ih hvisits
    simp only at hskip
    have hne := hskip.trans_ne (show Verdict.skip ≠ .stop from nofun)
    rw [Tree.prunedAll, Tree.pruned_eq, if_pos hskip, List.singleton_append, Spot.upTo,
      if_neg hne, List.map_cons, hmap, List.forall_mem_cons]
    exact ⟨rfl, hgoes.trans (and_iff_right hne).symm⟩
  | descend inside behind ih₁ ih₂ =>
    obtain ⟨hdescend, hvisits⟩ := List.forall_mem_cons.1 hanswer
    obtain ⟨hinner, hvisits⟩ := List.forall_mem_append.1 hvisits
    obtain ⟨hmap₁, hgoes₁⟩ := ih₁ hinner
    obtain ⟨hmap₂, hgoes₂⟩ := ih₂ hvisits
    simp only at hdescend
    have hne := hdescend.trans_ne (show Verdict.descend ≠ .stop from nofun)
    have hnot := hdescend.trans_ne (show Verdict.descend ≠ .skip from nofun)
    have hnone := hgoes₁.1 rfl
    rw [Spot.upTo_of_ne hnone] at hmap₁
    rw [Tree.prunedAll, Tree.pruned_eq, if_neg hnot, List.cons_append,
      Spot.upTo, if_neg hne, Spot.upTo_append_of_ne hnone, List.map_cons, List.map_append, hmap₁,
      hmap₂, List.forall_mem_cons, List.forall_mem_append]
    exact ⟨rfl, hgoes₂.trans ((and_iff_right hnone).symm.trans (and_iff_right hne).symm)⟩
  | within inside ih =>
    obtain ⟨hdescend, hvisits⟩ := List.forall_mem_cons.1 hanswer
    obtain ⟨hmap, hgoes⟩ := ih hvisits
    simp only at hdescend
    have hne := hdescend.trans_ne (show Verdict.descend ≠ .stop from nofun)
    have hnot := hdescend.trans_ne (show Verdict.descend ≠ .skip from nofun)
    obtain ⟨stop, hmem, hstop⟩ : ∃ spot ∈ Tree.prunedAll answer _ _ _, answer spot = .stop := by
      by_contra hnone
      exact absurd (hgoes.2 fun spot hspot hs => hnone ⟨spot, hspot, hs⟩) nofun
    rw [Tree.prunedAll, Tree.pruned_eq, if_neg hnot, List.cons_append,
      Spot.upTo, if_neg hne, Spot.upTo_append_of_mem hmem hstop, List.map_cons, hmap]
    refine ⟨rfl, iff_of_false nofun fun h => ?_⟩
    exact h stop (List.mem_cons_of_mem _ (List.mem_append_left _ hmem)) hstop

theorem singleton {tree : Tree Quote}
    (inside : Tour (depth + 1) (tree.inside start) tree.children visits true) :
    Tour depth start [tree] ((⟨depth, start, tree⟩, .descend) :: visits) true := by
  rw [← List.append_nil visits]
  exact .descend inside .nil

/-- A tour leaves nodes out, but does not change their order. -/
theorem sublist (h : Tour depth start trees visits goes) :
    (visits.map Prod.fst).Sublist (Tree.spotsAll depth start trees) := by
  induction h with
  | nil => exact List.nil_sublist _
  | stop =>
    rw [Tree.spotsAll_cons]
    exact (List.nil_sublist _).cons_cons _
  | skip behind ih =>
    rw [Tree.spotsAll_cons]
    exact (ih.trans (List.sublist_append_right _ _)).cons_cons _
  | descend inside behind ih₁ ih₂ =>
    rw [Tree.spotsAll_cons, List.map_cons, List.map_append]
    exact (ih₁.append ih₂).cons_cons _
  | within inside ih =>
    rw [Tree.spotsAll_cons]
    exact (ih.trans (List.sublist_append_left _ _)).cons_cons _

/-- **Every tour has answers**: no node is visited twice. -/
theorem exists_answer {names : Names} {pool : String} (h : Tour depth start trees visits goes)
    (hsound : Tree.SoundAll names pool trees) :
    ∃ answer : Spot → Verdict, ∀ visit ∈ visits, answer visit.1 = visit.2 := by
  have hspots : (visits.map Prod.fst).Pairwise fun a b => a.offset < b.offset :=
    (Tree.pairwise_spotsAll trees hsound).sublist h.sublist
  have hpairwise : visits.Pairwise fun a b => a.1.offset < b.1.offset :=
    hspots.of_map Prod.fst fun _ _ => id
  -- a visit is told by its offset
  have hfind : ∀ {visits : List (Spot × Verdict)},
      visits.Pairwise (fun a b => a.1.offset < b.1.offset) → ∀ visit ∈ visits,
        visits.find? (fun v => v.1.offset = visit.1.offset) = some visit := by
    intro visits hpairwise
    induction hpairwise with
    | nil => exact nofun
    | cons hlt _ ih =>
      intro visit hvisit
      rcases List.mem_cons.1 hvisit with rfl | hvisit
      · exact List.find?_cons_of_pos (decide_eq_true rfl)
      · rw [List.find?_cons_of_neg, ih visit hvisit]
        exact fun heq => Nat.ne_of_lt (hlt visit hvisit) (of_decide_eq_true heq)
  refine ⟨fun spot => ((visits.find? fun v => v.1.offset = spot.offset).map Prod.snd).getD .descend,
    fun visit hvisit => ?_⟩
  simp only
  rw [hfind hpairwise visit hvisit]
  rfl

end Tour

end HtmlTape
