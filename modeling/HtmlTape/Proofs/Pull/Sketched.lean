import HtmlTape.Proofs.Name.Sound
import HtmlTape.Proofs.Pull.Gathered
import HtmlTape.Proofs.Pull.Tour
import HtmlTape.Proofs.Text.Escaped
import HtmlTape.Pull.Sketch

/-!
# Sketches are the first lines of a listing

Every node of a forest has a line, indented by two blanks for each element around it
(`Spot.sketch`).  A walk that gathers lines until there are enough of them gathers the first lines
of the listing of the forest (`Names.sketchReading_forest`): the rest of a listing is looked at only
if there is room left.  So the sketch of a document is as long as asked for, or has a line for each
node (`Recording.sketch_of_madeBy`).
-/

namespace HtmlTape

variable {d : Document}

/-! ### Lines -/

def Names.sketchGroup (names : Names) (g : Group Quote) : String :=
  if g.values.isEmpty then " " ++ names.attr g.name
  else " " ++ names.attr g.name ++ "=" ++
    Text.quoted (" ".intercalate (g.values.map Quote.text)).toList

/-- The line of a node without its indentation. -/
def Names.sketchTree (names : Names) : Tree Quote → String
  | .doctype => "<!DOCTYPE html>"
  | .text q => "\"" ++ Document.preview q.text ++ "\""
  | .raw q => "raw \"" ++ Document.preview q.text ++ "\""
  | .element name groups _ =>
    "<" ++ names.tag name ++ String.join (groups.map names.sketchGroup) ++ ">"

/-- The line of a node. -/
def Spot.sketch (names : Names) (spot : Spot) : String :=
  String.join (List.replicate spot.depth "  ") ++ names.sketchTree spot.tree

/-! ### Lines have no line feeds -/

theorem lineFeed_notMem_join {texts : List String} (h : ∀ text ∈ texts, '\n' ∉ text.toList) :
    '\n' ∉ (String.join texts).toList := by
  rw [String.toList_join]
  intro hmem
  obtain ⟨text, htext, hin⟩ := List.mem_flatMap.1 hmem
  exact h text htext hin

theorem Document.lineFeed_notMem_preview (s : String) : '\n' ∉ (preview s).toList := by
  have hshown : '\n' ∉ (s.toList.take previewLength).map fun c => if c = '\n' then ' ' else c := by
    intro h
    obtain ⟨c, -, hc⟩ := List.mem_map.1 h
    by_cases hfeed : c = '\n'
    · rw [if_pos hfeed] at hc
      cases hc
    · exact hfeed ((if_neg hfeed).symm.trans hc)
  rw [preview, String.toList_ofList]
  split
  · simpa using hshown
  · exact hshown

theorem Names.Sound.lineFeed_notMem_sketchGroup {names : Names} (h : names.Sound)
    (g : Group Quote) : '\n' ∉ (names.sketchGroup g).toList := by
  have hname := h.lineFeed_notMem_attr g.name
  rw [Names.sketchGroup]
  split
  · simpa using hname
  · simpa [hname] using Text.lineFeed_notMem_quoted _

/-- **The line of a node has no line feed.** -/
theorem Names.Sound.lineFeed_notMem_sketch {names : Names} (h : names.Sound) (spot : Spot) :
    '\n' ∉ (spot.sketch names).toList := by
  have hindent : '\n' ∉ (String.join (List.replicate spot.depth "  ")).toList :=
    lineFeed_notMem_join fun text htext => by
      rw [List.eq_of_mem_replicate htext]
      decide
  rw [Spot.sketch, String.toList_append, List.mem_append]
  refine fun hmem => hmem.elim hindent ?_
  cases spot.tree with
  | doctype => simp [Names.sketchTree]
  | text q | raw q => simpa [Names.sketchTree] using Document.lineFeed_notMem_preview q.text
  | element name groups children =>
    simpa [Names.sketchTree] using
      ⟨h.lineFeed_notMem_tag name, fun g _ => h.lineFeed_notMem_sketchGroup g⟩

/-! ### Gathering lines -/

/-- Lines are added until there are enough of them; the answer tells whether there is room left. -/
def gatherLines (limit : Nat) (added : List String) (lines : Array String) :
    Bool × Array String :=
  (lines.size + added.length < limit, lines ++ added.take (limit - lines.size))

section Gather

variable {limit : Nat} {lines : Array String}

theorem size_appendList (lines : Array String) (added : List String) :
    (lines ++ added).size = lines.size + added.length := by
  rw [← Array.length_toList, ← Array.length_toList, ← List.length_append]
  exact congrArg List.length (by simp)

theorem gatherLines_nil (h : lines.size < limit) : gatherLines limit [] lines = (true, lines) := by
  rw [gatherLines, List.take_nil, Array.appendList_nil]
  exact congrArg (·, lines) (decide_eq_true h)

theorem gatherLines_append_of_lt {as : List String} (h : lines.size + as.length < limit)
    (bs : List String) :
    gatherLines limit (as ++ bs) lines = gatherLines limit bs (lines ++ as) := by
  have hall : as.take (limit - lines.size) = as := List.take_of_length_le (by omega)
  rw [gatherLines, gatherLines, size_appendList, List.take_append, hall, List.length_append,
    ← Nat.add_assoc, ← Nat.sub_sub, appendList_append]

theorem gatherLines_append_of_le {as : List String} (h : limit ≤ lines.size + as.length)
    (bs : List String) :
    gatherLines limit (as ++ bs) lines = (false, lines ++ as.take (limit - lines.size)) := by
  have hnone : limit - lines.size - as.length = 0 := by omega
  have hfull : ¬ lines.size + (as ++ bs).length < limit := by
    rw [List.length_append]
    omega
  rw [gatherLines, decide_eq_false hfull, List.take_append, hnone, List.take_zero, List.append_nil]

/-- The first line always has room. -/
theorem gatherLines_cons (h : lines.size < limit) (line : String) (more : List String) :
    gatherLines limit (line :: more) lines =
      if (lines.push line).size < limit then gatherLines limit more (lines.push line)
      else (false, lines.push line) := by
  have hpush : lines ++ [line] = lines.push line := (push_appendList lines line []).symm.trans
    Array.appendList_nil
  by_cases hroom : (lines.push line).size < limit
  · rw [if_pos hroom, ← hpush]
    rw [← hpush, size_appendList] at hroom
    exact gatherLines_append_of_lt hroom more
  · have htake : [line].take (limit - lines.size) = [line] :=
      List.take_of_length_le (by rw [List.length_singleton]; omega)
    rw [if_neg hroom, ← hpush]
    rw [← hpush, size_appendList] at hroom
    exact (gatherLines_append_of_le (Nat.le_of_not_lt hroom) more).trans (by rw [htake])

end Gather

def Names.sketchReading (names : Names) (limit : Nat) : Reading (Array String) where
  enter depth tree lines :=
    let lines := lines.push (String.join (List.replicate depth "  ") ++ names.sketchTree tree)
    (if lines.size < limit then .descend else .stop, lines)
  leave _ lines := lines

section Reading

variable {names : Names} {limit : Nat}

/-- The lines of a tree, when it is known how those of the trees inside of it are gathered. -/
theorem Names.sketchReading_tree {depth start : Nat} {tree : Tree Quote} {lines : Array String}
    (h : lines.size < limit)
    (hinside : ∀ {lines : Array String}, lines.size < limit →
      (names.sketchReading limit).forest (depth + 1) tree.children lines =
        gatherLines limit ((Tree.spotsAll (depth + 1) (tree.inside start) tree.children).map
          (Spot.sketch names)) lines) :
    (names.sketchReading limit).tree depth tree lines =
      gatherLines limit (Spot.sketch names ⟨depth, start, tree⟩ ::
        (Tree.spotsAll (depth + 1) (tree.inside start) tree.children).map (Spot.sketch names))
        lines := by
  rw [gatherLines_cons h]
  have henter : (names.sketchReading limit).enter depth tree lines =
      (if (lines.push (Spot.sketch names ⟨depth, start, tree⟩)).size < limit then .descend
        else .stop, lines.push (Spot.sketch names ⟨depth, start, tree⟩)) := rfl
  by_cases hroom : (lines.push (Spot.sketch names ⟨depth, start, tree⟩)).size < limit
  · rw [if_pos hroom, ← hinside hroom]
    rw [if_pos hroom] at henter
    cases tree with
    | doctype | text q | raw q =>
      rw [Reading.tree, henter]
      rfl
    | element name groups children =>
      rw [Reading.tree, henter]
      simp only [Tree.children]
      cases (names.sketchReading limit).forest (depth + 1) children
        (lines.push (Spot.sketch names ⟨depth, start, .element name groups children⟩)) with
      | mk goes lines => cases goes <;> rfl
  · rw [if_neg hroom]
    rw [if_neg hroom] at henter
    cases tree with
    | doctype | text q | raw q =>
      rw [Reading.tree, henter]
      rfl
    | element name groups children => rw [Reading.tree, henter]

/-- **Gathering the lines of trees** gathers the first lines of their listing. -/
theorem Names.sketchReading_forest (trees : List (Tree Quote)) :
    ∀ (depth start : Nat) {lines : Array String}, lines.size < limit →
      (names.sketchReading limit).forest depth trees lines =
        gatherLines limit ((Tree.spotsAll depth start trees).map (Spot.sketch names)) lines := by
  induction trees using Tree.children_induction with
  | nil => exact fun _ _ _ h => (gatherLines_nil h).symm
  | cons tree rest ih₁ ih₂ =>
    intro depth start lines h
    have htree := @sketchReading_tree names limit depth start tree lines h fun {lines} h =>
      ih₁ (depth + 1) (tree.inside start) h
    rw [Reading.forest, htree, Tree.spotsAll_cons, List.map_cons, List.map_append,
      ← List.cons_append]
    generalize Spot.sketch names ⟨depth, start, tree⟩ ::
      (Tree.spotsAll (depth + 1) (tree.inside start) tree.children).map (Spot.sketch names) = first
    by_cases hroom : lines.size + first.length < limit
    · have hsize : (lines ++ first).size < limit := by rwa [size_appendList]
      have hall : first.take (limit - lines.size) = first := List.take_of_length_le (by omega)
      rw [gatherLines_append_of_lt hroom, ← ih₂ _ _ hsize, gatherLines, decide_eq_true hroom, hall]
    · rw [gatherLines_append_of_le (Nat.le_of_not_lt hroom), gatherLines, decide_eq_false hroom]

end Reading

/-! ### Nodes -/

theorem Document.sketchGroup_eq {g : Group Quote} (h : g.Sound d.names d.pool) :
    d.sketchGroup g.attribute = .ok (d.names.sketchGroup g) := by
  obtain ⟨name, values⟩ := g
  rw [sketchGroup, AttributeGroup.nameText, AttributeGroup.valueTexts, Group.attribute,
    Names.attributeText_eq h.1, mapM_literal h.2]
  show (if (values.map Quote.text).isEmpty then _ else _) = _
  rw [List.isEmpty_map, Names.sketchGroup]
  by_cases hempty : values.isEmpty
  · rw [if_pos hempty, if_pos hempty]
    rfl
  · rw [if_neg hempty, if_neg hempty]
    rfl

/-- **Gathering the lines of nodes** follows the reading of the trees. -/
theorem Document.sketchVisitor_follows (limit : Nat) :
    (d.sketchVisitor limit).Follows d (d.names.sketchReading limit) where
  enter := by
    intro c nodes below frame tree depth lines h hsound hhas
    cases tree with
    | doctype | text q | raw q => exact ⟨c, _, rfl, h, id⟩
    | element name groups children =>
      obtain ⟨htext, attributes, c', hask, h', hunread⟩ :=
        h.tag rfl (by simp [Frame.after]) hsound hhas
      have hgroups : (groups.map Group.attribute).mapM d.sketchGroup =
          .ok (groups.map d.names.sketchGroup) := by
        rw [List.mapM_map]
        exact mapM_eq_ok fun g hg => sketchGroup_eq (hsound.2.2.1 g hg)
      have hnode : d.sketchNode c (.element ⟨nodes, frame.pc⟩) =
          .ok (d.names.sketchTree (.element name groups children), c') := by
        rw [sketchNode, htext, hask]
        show Except.bind (c'.unreadAttributes _) _ = _
        rw [hunread]
        show Except.bind ((groups.map Group.attribute).mapM d.sketchGroup) _ = _
        rw [hgroups]
        rfl
      refine ⟨c', .attributes, ?_, h', fun _ => by simp⟩
      show Except.bind (d.sketchNode c (.element ⟨nodes, frame.pc⟩)) _ = _
      rw [hnode]
      rfl
  leave := fun _ _ => rfl

/-- **The sketch of a document** has the first lines of its listing. -/
theorem Document.Spells.sketch {forest : List (Tree Quote)} (h : d.Spells forest) (limit : Nat) :
    d.sketch limit =
      .ok (((Tree.spotsAll 0 0 forest).map (Spot.sketch d.names)).take limit) := by
  rw [Document.sketch]
  by_cases hlimit : limit = 0
  · rw [if_pos hlimit, hlimit, List.take_zero]
  · obtain ⟨c, hwalk⟩ := (sketchVisitor_follows limit).walkWith h #[]
    rw [Names.sketchReading_forest forest 0 0 (Nat.pos_of_ne_zero hlimit)] at hwalk
    rw [if_neg hlimit, hwalk]
    simp [gatherLines, Except.map]

/-- The lines are a sketch of the document: those of the first nodes of the forest, in order and
each from its root on. -/
structure Document.SketchOf (d : Document) (forest : List (Tree Quote)) (limit : Nat)
    (lines : List String) : Prop where
  sketch : d.sketch limit = .ok lines
  listed : lines = ((Tree.spotsAll 0 0 forest).take limit).map (Spot.sketch d.names)
  length : lines.length = min limit (Tree.spotsAll 0 0 forest).length
  oneLine : ∀ line ∈ lines, '\n' ∉ line.toList
  longer : ∀ longer ≥ limit, ∃ more, d.sketch longer = .ok (lines ++ more)

/-- **A sketch has the first lines of the listing.**  Every recording can be compiled, and every
sketch of the document is answered: its lines are those of the first nodes of the forest, in order
and each from its root on, as many as were asked for.  A line stands for one node; it is indented by
two blanks for each element around the node, has no line feed, and shows the attributes of an
element, each with all of its values.  So there are as many lines as were asked for or as there are
nodes, and a shorter sketch is the start of a longer one. -/
theorem Recording.sketch_of_madeBy {t : Recording} {calls : List SpelledCall}
    (h : t.MadeBy calls) :
    ∃ (draft : Draft Quote) (d : Document),
      Draft.new.requestEach calls = some (draft.map Quote.text) ∧ t.compile = .ok d ∧
      ∀ limit, ∃ lines : List String, d.SketchOf draft.trees limit lines := by
  obtain ⟨draft, d, hcalls, _, hcompile, hnames, hspells⟩ := h.compile
  have hsound : d.names.Sound := hnames ▸ (Draft.names_sound hcalls : (draft.map _).names.Sound)
  refine ⟨draft, d, hcalls, hcompile, fun limit => ⟨_, hspells.sketch limit, ?_, ?_, ?_, ?_⟩⟩
  · rw [List.map_take]
  · rw [List.length_take, List.length_map]
  · intro line hline
    obtain ⟨spot, -, rfl⟩ := List.mem_map.1 (List.mem_of_mem_take hline)
    exact hsound.lineFeed_notMem_sketch spot
  · intro longer hle
    rw [hspells.sketch longer]
    obtain ⟨more, hmore⟩ := List.take_prefix_take_left (l :=
      (Tree.spotsAll 0 0 draft.trees).map (Spot.sketch d.names)) hle
    exact ⟨more, congrArg Except.ok hmore.symm⟩

theorem Recording.card_sketch :
    card.MadeBy cardCalls ∧ ∃ (draft : Draft Quote) (d : Document),
      Draft.new.requestEach cardCalls = some (draft.map Quote.text) ∧ card.compile = .ok d ∧
      ∀ limit, ∃ lines : List String, d.SketchOf draft.trees limit lines :=
  ⟨card_madeBy, sketch_of_madeBy card_madeBy⟩

end HtmlTape
