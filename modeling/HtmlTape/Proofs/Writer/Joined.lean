import HtmlTape.Proofs.Draft.Alike
import HtmlTape.Proofs.Draft.Joined
import HtmlTape.Proofs.Event.Played
import HtmlTape.Proofs.Markup.Value
import HtmlTape.Proofs.Writer.Inline

/-!
# Joined attributes are written alike

The values of an attribute are escaped one by one and written with blanks between them.  No
character reference has a blank, so they could as well be escaped as one value
(`Markup.escapeValue_intercalate`).

Events are written alike if they have the same markup wherever they stand, in every format, and
leave the layout in the same state (`Event.WrittenAlike`).  The events of an attribute and those of
the joined one are (`Group.writtenAlike_joined`), and so are the events of a document and those of
the document with joined attributes (`Item.Joined.writtenAlike`).
-/

namespace HtmlTape

/-! ### Values with blanks between them -/

namespace Markup

theorem escapeValue_blank (a b : String) : (escapeValue (a ++ " " ++ b)).text =
    (escapeValue a).text ++ " " ++ (escapeValue b).text := by
  apply String.toList_inj.1
  have hblank : (a ++ " " ++ b).toList = a.toList ++ ' ' :: b.toList := by
    rw [String.toList_append, String.toList_append, List.append_assoc]
    rfl
  rw [toList_escapeValue, hblank, written_valueFates_append_cons rfl rfl, String.toList_append,
    String.toList_append, toList_escapeValue, toList_escapeValue, List.append_assoc]
  rfl

/-- **Values with blanks between them are escaped one by one.** -/
theorem escapeValue_intercalate (value : String) (values : List String) :
    (escapeValue (" ".intercalate (value :: values))).text =
      " ".intercalate ((value :: values).map fun value => (escapeValue value).text) := by
  induction values generalizing value with
  | nil =>
    rw [List.map_singleton, String.intercalate_singleton, String.intercalate_singleton]
  | cons next values ih =>
    rw [List.map_cons, List.map_cons, String.intercalate_cons_cons, String.intercalate_cons_cons,
      escapeValue_blank, ih, List.map_cons]

end Markup

/-! ### Events that are written alike -/

/-- Wherever they stand, the events have the same markup in every format, and the layout is the same
after them. -/
def Event.WrittenAlike (es es' : List Event) : Prop :=
  ∀ s : Layout, (s.run es).2 = (s.run es').2 ∧
    ∀ format : Format, format.text (s.run es).1 = format.text (s.run es').1

namespace Event.WrittenAlike

variable {es es' es'' others others' : List Event}

theorem refl (es : List Event) : WrittenAlike es es := fun _ => ⟨rfl, fun _ => rfl⟩

theorem trans (h : WrittenAlike es es') (g : WrittenAlike es' es'') : WrittenAlike es es'' :=
  fun s => ⟨(h s).1.trans (g s).1, fun format => ((h s).2 format).trans ((g s).2 format)⟩

theorem append (h : WrittenAlike es es') (g : WrittenAlike others others') :
    WrittenAlike (es ++ others) (es' ++ others') := by
  intro s
  rw [Layout.run_append, Layout.run_append, (h s).1]
  refine ⟨(g _).1, fun format => ?_⟩
  rw [Format.text_append, Format.text_append, (h s).2 format, (g _).2 format]

theorem flatMap {α : Type} {f g : α → List Event} {as : List α}
    (h : ∀ a ∈ as, WrittenAlike (f a) (g a)) : WrittenAlike (as.flatMap f) (as.flatMap g) := by
  induction as with
  | nil => exact refl []
  | cons a as ih =>
    rw [List.flatMap_cons, List.flatMap_cons]
    exact (h a List.mem_cons_self).append (ih fun b hb => h b (List.mem_cons_of_mem a hb))

end Event.WrittenAlike

/-! ### Attributes -/

/-- What is written for an event of an attribute depends on the event alone. -/
theorem Layout.text_step_attribute (s : Layout) (format : Format) {e : Event}
    (h : e.isAttribute) : format.text (s.step e).1 = e.minified := by
  have hnil : ∀ lineBreak voidClose, Piece.fillAll lineBreak voidClose [] = "" := fun _ _ => rfl
  rw [Format.text_eq]
  cases e with
  | attributeName name =>
    rw [step, Piece.fillAll_cons, Piece.fillAll_cons, hnil, String.append_empty]
    rfl
  | firstValue value | nextValue value =>
    rw [step, Piece.fillAll_cons, fillAll_valuePieces]
    rfl
  | valueEnd =>
    rw [step, Piece.fillAll_cons, hnil, String.append_empty]
    rfl
  | _ => cases h

theorem Layout.text_run_attributes (s : Layout) (format : Format) {es : List Event}
    (h : ∀ e ∈ es, e.isAttribute) :
    format.text (s.run es).1 = String.join (es.map Event.minified) := by
  induction es with
  | nil => rfl
  | cons e es ih =>
    obtain ⟨he, hes⟩ := List.forall_mem_cons.1 h
    rw [run_cons_fst, Format.text_append, text_step_attribute s format he,
      step_of_isAttribute s he, ih hes, List.map_cons, String.join_cons]

namespace Group

theorem written_joined (names : Names) (g : Group String) :
    g.joined.written names = g.written names := by
  obtain ⟨name, values⟩ := g
  cases values with
  | nil => rfl
  | cons value values =>
    have hvalue : valueText [" ".intercalate (value :: values)] = valueText (value :: values) := by
      rw [valueText, valueText, List.map_singleton, String.intercalate_singleton,
        Markup.escapeValue_intercalate]
    show (names.attr name, some (valueText [" ".intercalate (value :: values)])) = _
    rw [hvalue]
    rfl

/-- **A joined attribute is written as before.** -/
theorem writtenAlike_joined (names : Names) (g : Group String) :
    Event.WrittenAlike (g.events names) (g.joined.events names) := by
  have hattr : ∀ g : Group String, ∀ e ∈ g.events names, e.isAttribute :=
    fun g e he => g.isAttribute_of_mem_events he
  intro s
  refine ⟨?_, fun format => ?_⟩
  · rw [Layout.run_attributes s (hattr g), Layout.run_attributes s (hattr g.joined)]
  · rw [s.text_run_attributes format (hattr g), s.text_run_attributes format (hattr g.joined)]
    apply String.toList_inj.1
    rw [minified_events, minified_events, written_joined]

end Group

/-! ### Documents -/

theorem Item.writtenAlike_joinNames (names : Names) (attributes : List AttributeName)
    (items : List (Item String)) :
    Event.WrittenAlike ((Group.gather (attributesAll items)).flatMap (Group.events names))
      ((Group.gather (attributesAll (joinNames attributes items))).flatMap
        (Group.events names)) := by
  induction attributes generalizing items with
  | nil => exact .refl _
  | cons name attributes ih =>
    refine Event.WrittenAlike.trans ?_ (ih (joinName items name))
    rw [gather_joinName, List.flatMap_map]
    refine .flatMap fun g _ => ?_
    by_cases hname : g.name = name
    · rw [if_pos hname]
      exact g.writtenAlike_joined names
    · rw [if_neg hname]
      exact .refl _

/-- **The events of a document with joined attributes are written as before.** -/
theorem Item.Joined.writtenAlike (names : Names) {items items' : List (Item String)}
    (h : Item.Joined items items') : Event.WrittenAlike (Tree.eventsAll names (treesAll items))
      (Tree.eventsAll names (treesAll items')) := by
  induction h with
  | nil => exact .refl []
  | mark m _ ih =>
    rw [treesAll, treesAll, Tree.eventsAll_append, Tree.eventsAll_append]
    exact (Event.WrittenAlike.refl _).append ih
  | @element tag attributes items items' rest rest' hitems _ ih₁ ih₂ =>
    rw [treesAll, treesAll, Tree.eventsAll_append, Tree.eventsAll_append]
    refine Event.WrittenAlike.append ?_ ih₂
    have hgroups := writtenAlike_joinNames names attributes items'
    rw [hitems.attributesAll_eq] at hgroups
    rw [trees, trees, Tree.eventsAll_singleton, Tree.eventsAll_singleton, Tree.events, Tree.events,
      treesAll_joinNames, hitems.isEmpty_treesAll]
    refine ((Event.WrittenAlike.refl [_]).append hgroups).append ?_
    by_cases hv : tag.kind.isVoid
    · rw [if_pos hv, if_pos hv]
      exact .refl _
    · rw [if_neg hv, if_neg hv]
      exact ((Event.WrittenAlike.refl [_]).append ih₁).append (.refl _)
  | fragment _ _ ih₁ ih₂ =>
    rw [treesAll, treesAll, Tree.eventsAll_append, Tree.eventsAll_append, trees, trees]
    exact ih₁.append ih₂

end HtmlTape
