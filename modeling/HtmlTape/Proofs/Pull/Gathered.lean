import HtmlTape.Proofs.Event.Played
import HtmlTape.Proofs.Pull.Walked
import HtmlTape.Pull.Events

/-!
# Events gathered node by node

Reading a document node by node gives the events of its trees (`Document.Spells.pullEvents`), and
so does playing it.  The two ways of reading a document that a recording was compiled to agree
(`Recording.pullEvents_of_madeBy`).
-/

namespace HtmlTape

variable {d : Document}

/-! ### Events of trees -/

/-- The events of a start tag with its attributes, up to the end of the tag. -/
def Names.tagEvents (names : Names) (name : ElementName) (groups : List (Group Quote))
    (hasChildren : Bool) : List Event :=
  .startTag (names.tag name) name.kind ::
    (groups.map (Group.map Quote.text)).flatMap (Group.events names) ++
    [if name.kind.isVoid then .voidEnd else .startTagEnd hasChildren]

def Names.eventReading (names : Names) : Reading (Array Event) where
  enter _ tree events :=
    match tree with
    | .doctype => (.skip, events.push .doctype)
    | .text q => (.skip, events.push (.text q.text))
    | .raw q => (.skip, events.push (.raw q.text))
    | .element name groups children =>
      (if name.kind.isVoid then .skip else .descend,
        events ++ names.tagEvents name groups (!children.isEmpty))
  leave name events := events.push (.endTag (names.tag name) name.kind)

theorem appendList_append {α : Type} (as : Array α) (bs cs : List α) :
    as ++ bs ++ cs = as ++ (bs ++ cs) :=
  Array.ext' (by simp)

theorem push_appendList {α : Type} (as : Array α) (b : α) (bs : List α) :
    as.push b ++ bs = as ++ (b :: bs) :=
  Array.ext' (by simp)

theorem Names.eventReading_forest {names : Names} {pool : String} (forest : List (Tree Quote)) :
    ∀ (depth : Nat) (events : Array Event), Tree.SoundAll names pool forest →
      names.eventReading.forest depth forest events =
        (true, events ++ Tree.eventsAll names (Tree.mapAll Quote.text forest)) := by
  induction forest using Tree.forest_induction with
  | nil =>
    intro depth events _
    exact congrArg (Prod.mk true) Array.appendList_nil.symm
  | doctype rest ih | text q rest ih | raw q rest ih =>
    intro depth events h
    exact (ih depth _ h.2).trans (congrArg (Prod.mk true) (push_appendList events _ _))
  | element name groups children rest ih₁ ih₂ =>
    intro depth events h
    obtain ⟨⟨_, _, _, hvoid, hchildren⟩, hrest⟩ := h
    have htree : names.eventReading.tree depth (.element name groups children) events =
        (true, events ++ Tree.events names ((Tree.element name groups children).map Quote.text)) := by
      rw [Reading.tree, Tree.map, Tree.events]
      by_cases hv : name.kind.isVoid
      · simp only [Names.eventReading, Names.tagEvents, if_pos hv]
      · have hinside := ih₁ (depth + 1)
          (events ++ names.tagEvents name groups (!children.isEmpty)) hchildren
        simp only [Names.eventReading, if_neg hv] at hinside ⊢
        rw [hinside, Tree.isEmpty_mapAll, Names.tagEvents, if_neg hv]
        refine congrArg (Prod.mk true) (Array.ext' ?_)
        simp
    rw [Reading.forest, htree]
    refine (ih₂ depth _ hrest).trans ?_
    rw [appendList_append]
    rfl

/-! ### Events of nodes -/

theorem Document.groupEvents_eq {g : Group Quote} (h : g.Sound d.names d.pool) :
    d.groupEvents g.attribute = .ok ((g.map Quote.text).events d.names) := by
  obtain ⟨name, values⟩ := g
  rw [groupEvents, AttributeGroup.nameText, AttributeGroup.valueTexts, Group.attribute,
    Names.attributeText_eq h.1, mapM_literal h.2]
  rfl

theorem Document.mapM_groupEvents {groups : List (Group Quote)}
    (h : ∀ g ∈ groups, g.Sound d.names d.pool) :
    (groups.map Group.attribute).mapM d.groupEvents =
      .ok ((groups.map (Group.map Quote.text)).map (Group.events d.names)) := by
  rw [List.mapM_map, List.map_map]
  exact mapM_eq_ok fun g hg => groupEvents_eq (h g hg)

theorem Document.nameText_eq {e : Element} {name : ElementName} (hname : e.name d = name)
    (hknown : (d.names.elementText? name).isSome) : e.nameText d = .ok (d.names.tag name) := by
  rw [Element.nameText, hname, Names.elementText_eq hknown]

/-- An element that was just read is asked for its name and its attributes. -/
theorem Cursor.At.tag {c : Cursor} {nodes : Nodes} {below : List Frame} {frame : Frame}
    {start : Nat} (h : c.At nodes below frame) (hcurrent : frame.current = some start)
    (hstage : frame.stage ≠ .children) {name : ElementName} {groups : List (Group Quote)}
    {children : List (Tree Quote)}
    (hsound : (Tree.element name groups children).Sound d.names d.pool)
    (hhas : d.Has start (Tree.element name groups children).instructions) :
    Element.nameText ⟨nodes, start⟩ d = .ok (d.names.tag name) ∧ ∃ attributes c',
      c.attributes d ⟨nodes, start⟩ = .ok (attributes, c') ∧
      c'.At nodes below { frame with stage := .attributes } ∧
      c'.unreadAttributes attributes = .ok (groups.map Group.attribute) := by
  obtain ⟨c', hask, h', hunread⟩ := h.attributes (d := d) hcurrent hstage
  rw [Tree.instructions] at hhas
  rw [Element.groups_eq hhas] at hask hunread
  exact ⟨Document.nameText_eq (Element.name_eq hhas) hsound.1, _, c', hask, h', hunread⟩

theorem Document.tagEvents_eq {c : Cursor} {nodes : Nodes} {below : List Frame} {frame : Frame}
    {start : Nat} (h : c.At nodes below frame) (hcurrent : frame.current = some start)
    (hstage : frame.stage ≠ .children) {name : ElementName} {groups : List (Group Quote)}
    {children : List (Tree Quote)}
    (hsound : (Tree.element name groups children).Sound d.names d.pool)
    (hhas : d.Has start (Tree.element name groups children).instructions) :
    ∃ c', d.tagEvents c ⟨nodes, start⟩ =
        .ok (d.names.tagEvents name groups (!children.isEmpty), c') ∧
      c'.At nodes below { frame with stage := .attributes } := by
  obtain ⟨htext, attributes, c', hask, h', hunread⟩ := h.tag hcurrent hstage hsound hhas
  obtain ⟨_, _, hgroups, _, _⟩ := hsound
  rw [Tree.instructions] at hhas
  have hname : Element.name ⟨nodes, start⟩ d = name := Element.name_eq hhas
  have hclose : (if (Element.kind ⟨nodes, start⟩ d).isVoid then Event.voidEnd
      else .startTagEnd (Element.hasChildren ⟨nodes, start⟩ d)) =
      if name.kind.isVoid then .voidEnd else .startTagEnd (!children.isEmpty) := by
    rw [Element.kind, hname]
    by_cases hv : name.kind.isVoid
    · rw [if_pos hv, if_pos hv]
    · rw [if_neg hv] at hhas
      rw [(Element.window_children hhas).1]
  refine ⟨c', ?_, h'⟩
  rw [tagEvents, htext, hask]
  show Except.bind (c'.unreadAttributes _) _ = _
  rw [hunread]
  show Except.bind ((groups.map Group.attribute).mapM d.groupEvents) _ = _
  rw [mapM_groupEvents hgroups, Names.tagEvents, ← hclose, Element.kind, hname,
    List.flatMap_def]
  rfl

theorem Document.eventVisitor_follows : d.eventVisitor.Follows d d.names.eventReading where
  enter := by
    intro c nodes below frame tree depth events h hsound hhas
    cases tree with
    | doctype | text q | raw q => exact ⟨c, _, rfl, h, id⟩
    | element name groups children =>
      obtain ⟨c', htag, h'⟩ := tagEvents_eq h rfl (by simp [Frame.after]) hsound hhas
      have hname : Element.name ⟨nodes, frame.pc⟩ d = name := by
        rw [Tree.instructions] at hhas
        exact Element.name_eq hhas
      refine ⟨c', .attributes, ?_, h', fun _ => by simp⟩
      show Except.bind (d.tagEvents c ⟨nodes, frame.pc⟩) _ = _
      rw [htag]
      show Except.ok (if (Element.kind ⟨nodes, frame.pc⟩ d).isVoid then _ else _, _, _) = _
      rw [Element.kind, hname]
      rfl
  leave := by
    intro e events hknown
    show Except.bind (e.nameText d) _ = _
    rw [nameText_eq rfl hknown]
    rfl

/-- **Reading a document node by node gives the events of its trees.** -/
theorem Document.Spells.pullEvents {forest : List (Tree Quote)} (h : d.Spells forest) :
    d.pullEvents = .ok (Tree.eventsAll d.names (Tree.mapAll Quote.text forest)) := by
  obtain ⟨c, hwalk⟩ := eventVisitor_follows.walkWith h #[]
  rw [Names.eventReading_forest forest 0 #[] h.sound] at hwalk
  rw [Document.pullEvents, hwalk]
  simp [Except.map]

/-- **Both ways of reading a compiled recording agree.**  The document that a finished recording
is compiled to is played without a fault, it is read node by node without a fault, and the events
are the same. -/
theorem Recording.pullEvents_of_madeBy {t : Recording} {calls : List SpelledCall}
    (h : t.MadeBy calls) :
    ∃ (d : Document) (events : List Event), t.compile = .ok d ∧
      d.bodyEvents = .ok events ∧ d.pullEvents = .ok events ∧
      d.eventLines = .ok (events.map Event.line) ∧
      d.pullEventLines = .ok (events.map Event.line) := by
  obtain ⟨draft, d, _, _, hcompile, _, hspells⟩ := h.compile
  have hbody := hspells.bodyEvents
  have hpull := hspells.pullEvents
  refine ⟨d, _, hcompile, hbody, hpull, ?_, ?_⟩
  · rw [Document.eventLines, hbody]
    rfl
  · rw [Document.pullEventLines, hpull]
    rfl

theorem Recording.card_pullEvents : card.MadeBy cardCalls ∧
    ∃ (d : Document) (events : List Event), card.compile = .ok d ∧
      d.bodyEvents = .ok events ∧ d.pullEvents = .ok events ∧
      d.eventLines = .ok (events.map Event.line) ∧
      d.pullEventLines = .ok (events.map Event.line) :=
  ⟨card_madeBy, pullEvents_of_madeBy card_madeBy⟩

end HtmlTape
