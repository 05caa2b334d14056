import HtmlTape.Event.Play
import HtmlTape.Proofs.Code.Compiled

/-!
# Playing trees

`Document.Plays d opened is events opened'` says that the instructions `is`, wherever they stand,
are played as `events`, and what elements are open before and after them.  Rows that are played
one after another are played in a row (`Plays.append`); so the bytecode of a tree is played as the
events of the tree (`plays_instructionsAll`), and a document that spells trees reads them aloud
(`Spells.bodyEvents`).

What was recorded is what is played: the events of a document that a recording is compiled to are
those of the trees of the draft that the requests describe (`Recording.events_of_madeBy`).
-/

namespace HtmlTape

namespace Document

variable {d : Document} {opened opened' opened'' : List ElementName}
  {is js : List Instruction} {events events' : List Event}

theorem playFrom_append (xs ys : List (Nat × Instruction)) :
    d.playFrom opened (xs ++ ys) = do
      let (events, opened) ← d.playFrom opened xs
      let (events', opened) ← d.playFrom opened ys
      return (events ++ events', opened) := by
  induction xs generalizing opened with
  | nil =>
    show _ = Except.bind (d.playFrom opened ys) _
    rw [List.nil_append]
    cases d.playFrom opened ys <;> rfl
  | cons x xs ih =>
    rw [List.cons_append, playFrom, playFrom]
    cases d.openAfter opened x.1 x.2 with
    | error fault => rfl
    | ok inner =>
      cases d.event x.2 with
      | error fault => rfl
      | ok event =>
        show Except.bind (d.playFrom inner (xs ++ ys)) _ = _
        rw [ih]
        show _ = Except.bind (Except.bind (d.playFrom inner xs) _) _
        cases d.playFrom inner xs with
        | error fault => rfl
        | ok result =>
          show Except.bind (Except.bind (d.playFrom result.2 ys) _) _ =
            Except.bind (d.playFrom result.2 ys) _
          cases d.playFrom result.2 ys <;> rfl

/-- Wherever the instructions stand, they are played as the events when the elements `opened` are
open, and the elements `opened'` are open after them. -/
def Plays (d : Document) (opened : List ElementName) (is : List Instruction)
    (events : List Event) (opened' : List ElementName) : Prop :=
  ∀ offset, d.playFrom opened (Instruction.placedAll offset is) = .ok (events, opened')

namespace Plays

theorem nil : d.Plays opened [] [] opened := fun _ => rfl

theorem append (h : d.Plays opened is events opened') (g : d.Plays opened' js events' opened'') :
    d.Plays opened (is ++ js) (events ++ events') opened'' := by
  intro offset
  rw [Instruction.placedAll_append, playFrom_append, h offset]
  show Except.bind (d.playFrom opened' _) _ = _
  rw [g]
  rfl

theorem single {i : Instruction} {event : Event}
    (hopen : ∀ offset, d.openAfter opened offset i = .ok opened') (hevent : d.event i = .ok event) :
    d.Plays opened [i] [event] opened' := by
  intro offset
  rw [Instruction.placedAll, playFrom, hopen, hevent]
  rfl

end Plays

/-! ### Attributes -/

theorem plays_nextValues {qs : List Quote}
    (h : ∀ q ∈ qs, q.literal.read? d.pool = some q.text) :
    d.Plays opened ((qs.map Quote.literal).map .nextValue) ((qs.map Quote.text).map .nextValue)
      opened := by
  induction qs with
  | nil => exact .nil
  | cons q qs ih =>
    have hq : d.event (.nextValue q.literal) = .ok (.nextValue q.text) := by
      rw [event, literal_eq_ok (h q List.mem_cons_self)]
      rfl
    exact (Plays.single (fun _ => rfl) hq).append (ih fun q hq => h q (List.mem_cons_of_mem _ hq))

theorem plays_attribute {g : Group Quote} (h : g.Sound d.names d.pool) :
    d.Plays opened g.attribute.instructions ((g.map Quote.text).events d.names) opened := by
  obtain ⟨name, values⟩ := g
  obtain ⟨hname, hvalues⟩ := h
  have hn : d.Plays opened [.attributeName name] [.attributeName (d.names.attr name)] opened := by
    refine .single (fun _ => rfl) ?_
    rw [event, Names.attributeText_eq hname]
    rfl
  cases values with
  | nil => exact hn
  | cons q qs =>
    have hq : d.event (.firstValue q.literal) = .ok (.firstValue q.text) := by
      rw [event, literal_eq_ok (hvalues q List.mem_cons_self)]
      rfl
    have hqs : d.Plays opened ((qs.map Quote.literal).map .nextValue)
        ((qs.map Quote.text).map .nextValue) opened :=
      plays_nextValues fun q hq => hvalues q (List.mem_cons_of_mem _ hq)
    have hend : d.Plays opened [.valueEnd] [.valueEnd] opened := .single (fun _ => rfl) rfl
    exact hn.append (((Plays.single (fun _ => rfl) hq).append hqs).append hend)

theorem plays_attributes {groups : List (Group Quote)}
    (h : ∀ g ∈ groups, g.Sound d.names d.pool) :
    d.Plays opened ((groups.map Group.attribute).flatMap AttributeGroup.instructions)
      ((groups.map (Group.map Quote.text)).flatMap (Group.events d.names)) opened := by
  induction groups with
  | nil => exact .nil
  | cons g groups ih =>
    exact (plays_attribute (h g List.mem_cons_self)).append
      (ih fun g hg => h g (List.mem_cons_of_mem _ hg))

/-! ### Trees -/

/-- **The bytecode of trees is played as the events of the trees.** -/
theorem plays_instructionsAll (forest : List (Tree Quote)) : ∀ {opened : List ElementName},
    Tree.SoundAll d.names d.pool forest → d.Plays opened (Tree.instructionsAll forest)
      (Tree.eventsAll d.names (Tree.mapAll Quote.text forest)) opened := by
  induction forest using Tree.forest_induction with
  | nil => intro opened _; exact .nil
  | doctype rest ih =>
    intro opened h
    exact (Plays.single (fun _ => rfl) rfl).append (ih h.2)
  | text q rest ih =>
    intro opened h
    have hq : d.event (.text q.literal) = .ok (.text q.text) := by
      rw [event, literal_eq_ok h.1]
      rfl
    exact (Plays.single (fun _ => rfl) hq).append (ih h.2)
  | raw q rest ih =>
    intro opened h
    have hq : d.event (.raw q.literal) = .ok (.raw q.text) := by
      rw [event, literal_eq_ok h.1]
      rfl
    exact (Plays.single (fun _ => rfl) hq).append (ih h.2)
  | element name groups children rest ih₁ ih₂ =>
    intro opened h
    obtain ⟨⟨hname, _, hgroups, hvoid, hchildren⟩, hrest⟩ := h
    refine Plays.append ?_ (ih₂ hrest)
    rw [Tree.map, Tree.instructions, Tree.events]
    have hstart : ∀ span, d.Plays opened [.startTag name span]
        [.startTag (d.names.tag name) name.kind] (name :: opened) := by
      intro span
      refine .single (fun _ => rfl) ?_
      rw [event, Names.elementText_eq hname]
      rfl
    have hattrs : d.Plays (name :: opened)
        ((groups.map Group.attribute).flatMap AttributeGroup.instructions)
        ((groups.map (Group.map Quote.text)).flatMap (Group.events d.names)) (name :: opened) :=
      plays_attributes hgroups
    by_cases hv : name.kind.isVoid
    · rw [if_pos hv, if_pos hv]
      exact (hstart _).append (hattrs.append (.single (fun _ => rfl) rfl))
    · rw [if_neg hv, if_neg hv]
      have hend : d.Plays (name :: opened) [.endTag name]
          [.endTag (d.names.tag name) name.kind] opened := by
        refine .single (fun _ => if_pos rfl) ?_
        rw [event, Names.elementText_eq hname]
        rfl
      rw [Tree.isEmpty_mapAll]
      have htag : d.Plays (name :: opened) [.startTagEnd (!children.isEmpty)]
          [.startTagEnd (!children.isEmpty)] (name :: opened) := .single (fun _ => rfl) rfl
      exact (hstart _).append (hattrs.append (htag.append ((ih₁ hchildren).append hend)))

/-- **A document that spells trees reads them aloud.** -/
theorem Spells.bodyEvents {forest : List (Tree Quote)} (h : d.Spells forest) :
    d.bodyEvents = .ok (Tree.eventsAll d.names (Tree.mapAll Quote.text forest)) := by
  have hforest : d.Plays [] _ _ [] := plays_instructionsAll forest h.sound
  have hplays := hforest 0
  have hsize : ¬ d.readableSize < d.code.size := by
    rw [readableSize_eq h.code]
    exact Nat.lt_irrefl _
  rw [Document.bodyEvents, instructions_eq h.code, hplays]
  show (if d.readableSize < d.code.size then _ else _) = _
  rw [if_neg hsize]
  rfl

theorem Spells.allEvents {forest : List (Tree Quote)} (h : d.Spells forest) :
    d.events = .ok (.documentStart :: Tree.eventsAll d.names (Tree.mapAll Quote.text forest) ++
      [.documentEnd]) := by
  rw [Document.events, h.bodyEvents]
  rfl

end Document

theorem Recorder.Mirrors.played {r r' : Recorder} {draft : Draft Quote} {t : Recording}
    (hm : r.Mirrors draft) (hfinish : r.finish = .ok (t, r')) :
    ∃ d : Document, t.compile = .ok d ∧ d.names = draft.names ∧
      d.events = .ok (.documentStart ::
        Tree.eventsAll draft.names (draft.map Quote.text).trees ++ [.documentEnd]) := by
  obtain ⟨d, _, hcompile, hnames, hspells⟩ := hm.compile hfinish
  refine ⟨d, hcompile, hnames, ?_⟩
  rw [hspells.allEvents, hnames, ← Draft.trees_map]

/-- A recording that is made by requests can be compiled, and the document reads the trees aloud
that the requests describe, with the names of the recording. -/
theorem Recording.MadeBy.played {t : Recording} {calls : List SpelledCall} (h : t.MadeBy calls) :
    ∃ (draft : Draft String) (d : Document), Draft.new.requestEach calls = some draft ∧
      t.compile = .ok d ∧ d.names = draft.names ∧
      d.events = .ok (.documentStart :: Tree.eventsAll draft.names draft.trees ++
        [.documentEnd]) := by
  obtain ⟨r, r', hreach, hfinish⟩ := h
  obtain ⟨draft, hm, hcalls⟩ := hreach.mirrors
  obtain ⟨d, hplayed⟩ := hm.played hfinish
  exact ⟨draft.map Quote.text, d, hcalls, hplayed⟩

/-- **What was recorded is what is played.**  Every recording that a recorder hands over after
some requests can be compiled, and the document is played as the trees of the draft that the
requests describe. -/
theorem Recording.events_of_madeBy {t : Recording} {calls : List SpelledCall}
    (h : t.MadeBy calls) :
    ∃ (draft : Draft String) (d : Document), Draft.new.requestEach calls = some draft ∧
      draft.outer = [] ∧ t.compile = .ok d ∧
      d.bodyEvents = .ok (Tree.eventsAll draft.names draft.trees) ∧
      d.events = .ok (.documentStart :: Tree.eventsAll draft.names draft.trees ++
        [.documentEnd]) := by
  obtain ⟨draft, d, hcalls, houter, hcompile, hnames, hspells⟩ := h.compile
  have hbody := hspells.bodyEvents
  rw [hnames, ← Draft.trees_map] at hbody
  refine ⟨draft.map Quote.text, d, hcalls, ?_, hcompile, hbody, ?_⟩
  · rw [Draft.map, houter]
    rfl
  · rw [Document.events, hbody]
    rfl

theorem Recording.card_events : card.MadeBy cardCalls ∧
    ∃ (draft : Draft String) (d : Document), Draft.new.requestEach cardCalls = some draft ∧
      draft.outer = [] ∧ card.compile = .ok d ∧
      d.bodyEvents = .ok (Tree.eventsAll draft.names draft.trees) ∧
      d.events = .ok (.documentStart :: Tree.eventsAll draft.names draft.trees ++
        [.documentEnd]) :=
  ⟨card_madeBy, events_of_madeBy card_madeBy⟩

end HtmlTape
