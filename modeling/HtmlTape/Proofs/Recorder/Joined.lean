import HtmlTape.Proofs.Builder.Retold
import HtmlTape.Proofs.Recorder.Allowed
import HtmlTape.Proofs.Writer.Joined

/-!
# Documents with joined attributes

A document in which attributes are joined can be recorded as well as the document itself: no name is
new, and no element gets other children (`Item.Joined.properAll`).  Both are written alike in every
format (`Recording.joined`).
-/

namespace HtmlTape

namespace Item

variable {names : Names} {items items' : List (Item String)} {name : AttributeName}

/-! ### What is checked -/

theorem forall_isAttribute_iff (items : List (Item String)) :
    (∀ item ∈ expandedAll items, item.isAttribute) ↔ treesAll items = [] := by
  induction items using forest_induction with
  | nil => exact iff_of_true (fun _ h => nomatch h) rfl
  | mark m rest ih =>
    rw [expandedAll, expanded, List.singleton_append, List.forall_mem_cons, treesAll,
      List.append_eq_nil_iff, ih]
    refine and_congr_left' ?_
    cases m <;> simp [isAttribute, Mark.isAttribute, Mark.attribute?, trees, Mark.trees]
  | element tag items rest _ ih =>
    rw [expandedAll, expanded, List.singleton_append, List.forall_mem_cons, treesAll,
      List.append_eq_nil_iff]
    refine iff_of_false (fun h => ?_) fun h => ?_
    · cases h.1
    · cases h.1
  | fragment items rest ih₁ ih₂ =>
    rw [expandedAll, expanded, List.forall_mem_append, ih₁, ih₂, treesAll,
      List.append_eq_nil_iff, trees]

theorem forall_not_isAttribute_iff (items : List (Item String)) :
    (∀ item ∈ expandedAll items, item.isAttribute = false) ↔ attributesAll items = [] := by
  induction items using forest_induction with
  | nil => exact iff_of_true (fun _ h => nomatch h) rfl
  | mark m rest ih =>
    rw [expandedAll, expanded, List.singleton_append, List.forall_mem_cons, attributesAll,
      List.append_eq_nil_iff, ih]
    refine and_congr_left' ?_
    cases m <;> simp [isAttribute, Mark.isAttribute, Mark.attribute?, attributes]
  | element tag items rest _ ih =>
    rw [expandedAll, expanded, List.singleton_append, List.forall_mem_cons, attributesAll,
      List.append_eq_nil_iff, ih]
    exact and_congr_left' (iff_of_true rfl rfl)
  | fragment items rest ih₁ ih₂ =>
    rw [expandedAll, expanded, List.forall_mem_append, ih₁, ih₂, attributesAll,
      List.append_eq_nil_iff, attributes]

namespace ProperAll

theorem known (h : ProperAll names items) :
    ∀ a ∈ attributesAll items, (names.attributeText? a.1).isSome := by
  induction items using forest_induction with
  | nil => exact fun _ ha => absurd ha List.not_mem_nil
  | mark m rest ih =>
    obtain ⟨hm, hrest⟩ := mark_iff.1 h
    rw [attributesAll, List.forall_mem_append]
    refine ⟨?_, ih hrest⟩
    cases m with
    | valued other value | boolean other =>
      intro a ha
      rw [List.mem_singleton.1 ha]
      exact hm
    | text | raw | doctype => exact fun _ ha => absurd ha List.not_mem_nil
  | element tag items rest _ ih => exact ih (element_iff.1 h).2
  | fragment items rest ih₁ ih₂ =>
    obtain ⟨hitems, hrest⟩ := fragment_iff.1 h
    rw [attributesAll, List.forall_mem_append]
    exact ⟨ih₁ hitems, ih₂ hrest⟩

theorem withoutAll (name : AttributeName) (h : ProperAll names items) :
    ProperAll names (Item.withoutAll name items) := by
  induction items using forest_induction with
  | nil => exact h
  | mark m rest ih =>
    obtain ⟨hm, hrest⟩ := mark_iff.1 h
    rw [Item.withoutAll, without]
    by_cases hname : m.attribute?.any (·.1 = name)
    · rw [if_pos hname]
      exact ih hrest
    · rw [if_neg hname]
      exact mark_iff.2 ⟨hm, ih hrest⟩
  | element tag items rest _ ih =>
    obtain ⟨helement, hrest⟩ := element_iff.1 h
    exact element_iff.2 ⟨helement, ih hrest⟩
  | fragment items rest ih₁ ih₂ =>
    obtain ⟨hitems, hrest⟩ := fragment_iff.1 h
    exact fragment_iff.2 ⟨ih₁ hitems, ih₂ hrest⟩

theorem onceAll (hname : (names.attributeText? name).isSome) (value : String)
    (h : ProperAll names items) : ProperAll names (Item.onceAll name value items) := by
  induction items using forest_induction with
  | nil => exact h
  | mark m rest ih =>
    obtain ⟨hm, hrest⟩ := mark_iff.1 h
    rw [Item.onceAll]
    split
    · exact mark_iff.2 ⟨hname, hrest.withoutAll name⟩
    · exact mark_iff.2 ⟨hm, ih hrest⟩
  | element tag items rest _ ih =>
    obtain ⟨helement, hrest⟩ := element_iff.1 h
    rw [Item.onceAll]
    split
    · exact element_iff.2 ⟨helement, hrest.withoutAll name⟩
    · exact element_iff.2 ⟨helement, ih hrest⟩
  | fragment items rest ih₁ ih₂ =>
    obtain ⟨hitems, hrest⟩ := fragment_iff.1 h
    rw [Item.onceAll]
    split
    · exact fragment_iff.2 ⟨ih₁ hitems, hrest.withoutAll name⟩
    · exact fragment_iff.2 ⟨hitems, ih₂ hrest⟩

theorem joinName (h : ProperAll names items) (name : AttributeName) :
    ProperAll names (Item.joinName items name) := by
  rw [Item.joinName]
  split
  · exact h
  · rename_i value values hvalues
    obtain ⟨a, ha, rfl⟩ := List.mem_map.1 (hasName_iff.1 (hasName_of_valuesOf hvalues))
    exact h.onceAll (h.known a ha) _

theorem joinNames (h : ProperAll names items) (attributes : List AttributeName) :
    ProperAll names (Item.joinNames attributes items) := by
  induction attributes generalizing items with
  | nil => exact h
  | cons name attributes ih => exact ih (h.joinName name)

theorem alike (h : ProperAll names items) : Item.Alike names names items items := by
  induction items using forest_induction with
  | nil => exact .nil
  | mark m rest ih =>
    obtain ⟨hm, hrest⟩ := mark_iff.1 h
    refine .mark ?_ (ih hrest)
    cases m with
    | text value => exact .text value
    | raw value => exact .raw value
    | doctype => exact .doctype
    | valued name value => exact .valued value ((Names.Extends.refl _).sameAttribute hm)
    | boolean name => exact .boolean ((Names.Extends.refl _).sameAttribute hm)
  | element tag items rest ih₁ ih₂ =>
    obtain ⟨⟨htag, hitems, _⟩, hrest⟩ := element_iff.1 h
    exact .element ((Names.Extends.refl _).sameElement htag) (ih₁ hitems) (ih₂ hrest)
  | fragment items rest ih₁ ih₂ =>
    obtain ⟨hitems, hrest⟩ := fragment_iff.1 h
    exact .fragment (ih₁ hitems) (ih₂ hrest)

end ProperAll

/-- **Joining attributes keeps a document proper.** -/
theorem Joined.properAll (h : Joined items items') (hproper : ProperAll names items) :
    ProperAll names items' := by
  induction h with
  | nil => exact hproper
  | mark m _ ih =>
    obtain ⟨hm, hrest⟩ := ProperAll.mark_iff.1 hproper
    exact ProperAll.mark_iff.2 ⟨hm, ih hrest⟩
  | @element tag attributes items items' rest rest' hjoined _ ih₁ ih₂ =>
    obtain ⟨⟨htag, hitems, hvoid⟩, hrest⟩ := ProperAll.element_iff.1 hproper
    refine ProperAll.element_iff.2 ⟨⟨htag, (ih₁ hitems).joinNames attributes, fun hv => ?_⟩,
      ih₂ hrest⟩
    -- a void element owns no trees, and joining leaves the trees as they are
    have hempty := hjoined.isEmpty_treesAll
    rw [List.isEmpty_iff.2 ((forall_isAttribute_iff items).1 (hvoid hv)), List.isEmpty_iff]
      at hempty
    rw [forall_isAttribute_iff, treesAll_joinNames, hempty]
  | fragment _ _ ih₁ ih₂ =>
    obtain ⟨hitems, hrest⟩ := ProperAll.fragment_iff.1 hproper
    exact ProperAll.fragment_iff.2 ⟨ih₁ hitems, ih₂ hrest⟩

end Item

/-! ### Recordings -/

def Draft.withItems (m : Draft String) (items : List (Item String)) : Draft String :=
  { m with current := ⟨m.current.scope, items⟩ }

/-- The recording is one of the document, whatever codes its names have. -/
def Recording.Describes (t : Recording) (m : Draft String) : Prop :=
  ∃ calls draft, t.MadeBy calls ∧ Draft.new.requestEach calls = some draft ∧ m.Alike draft

/-- Both recordings are compiled, and every format writes them as the same markup. -/
def Recording.WrittenAlike (t t' : Recording) : Prop :=
  ∃ d d' : Document, t.compile = .ok d ∧ t'.compile = .ok d' ∧
    ∀ format : Format, ∃ text, d.render format = .ok text ∧ d'.render format = .ok text

theorem Draft.Proper.alike {m : Draft String} (h : m.Proper) (hnames : m.names.Sound)
    (houter : m.outer = []) : m.Alike m where
  names := (Names.Extends.refl _).covers hnames hnames
  current := by
    obtain ⟨hroot, _, hitems, _⟩ := h
    refine ⟨?_, hitems.alike⟩
    rw [hroot.2 houter]
    exact .root
  outer := by
    rw [houter]
    exact .nil

/-- Events that are written alike make documents that are rendered alike. -/
theorem Event.WrittenAlike.render_eq {es es' : List Event} (h : WrittenAlike es es')
    {d d' : Document} (hd : d.events = .ok (.documentStart :: es ++ [.documentEnd]))
    (hd' : d'.events = .ok (.documentStart :: es' ++ [.documentEnd])) (format : Format) :
    ∃ text, d.render format = .ok text ∧ d'.render format = .ok text := by
  have hall : WrittenAlike (.documentStart :: es ++ [.documentEnd])
      (.documentStart :: es' ++ [.documentEnd]) :=
    ((WrittenAlike.refl [.documentStart]).append h).append (.refl [.documentEnd])
  refine ⟨format.text (pieces (.documentStart :: es ++ [.documentEnd])), ?_, ?_⟩
  · rw [Document.render_eq, hd]
    rfl
  · rw [Document.render_eq, hd']
    exact congrArg Except.ok ((hall _).2 format).symm

/-- **An attribute that is recorded several times is written as if it was recorded once**, at its
first place, with its values joined by blanks; and so are any attributes of any elements at once.
Such a recording exists, and every one is written like the first one in every format. -/
theorem Recording.joined {t : Recording} {calls : List SpelledCall} {m : Draft String}
    (ht : t.MadeBy calls) (hm : Draft.new.requestEach calls = some m) {items : List (Item String)}
    (hjoined : Item.Joined m.current.items items) :
    (∃ t' : Recording, t'.Describes (m.withItems items)) ∧
      ∀ t' : Recording, t'.Describes (m.withItems items) → t.WrittenAlike t' := by
  obtain ⟨r, r', hr, hfinish⟩ := ht
  obtain ⟨q, hq, hcalls⟩ := hr.mirrors
  obtain rfl : q.map Quote.text = m := Option.some.inj (hcalls.symm.trans hm)
  have houter : (q.map Quote.text).outer = [] := by
    rw [Draft.map, hq.outer_eq_nil (Recorder.finish_eq_ok hfinish).1]
    rfl
  obtain ⟨hroot, hname, hitems, hlevels⟩ := hq.proper
  have hproper : ((q.map Quote.text).withItems items).Proper :=
    ⟨hroot, hname, hjoined.properAll hitems, hlevels⟩
  constructor
  · have hnodes := (hq.finish_iff.1 ⟨_, hfinish⟩).2
    rw [← q.forall_expandedAll_map Quote.text (· = false), Item.forall_not_isAttribute_iff,
      ← hjoined.attributesAll_eq, ← Item.forall_not_isAttribute_iff] at hnodes
    have hallow : ((q.map Quote.text).withItems items).Allows .finish := ⟨houter, hnodes⟩
    obtain ⟨calls', htakes⟩ := Draft.exists_takes hproper hcalls rfl
    obtain ⟨calls'', s, q', hsame, hs, hq', hdraft⟩ := Recorder.Reaches.of_takes htakes
    rw [← hdraft] at hallow
    obtain ⟨⟨t', s'⟩, hfinish'⟩ := Recorder.exists_map_eq_ok.1
      ((hq'.step_ok_iff .finish).2 ⟨hallow, s.places_of_args_eq_nil rfl⟩)
    have hnames : (q.map Quote.text).names.Sound := Draft.names_sound hcalls
    exact ⟨t', calls'', _, ⟨s, s', hs, hfinish'⟩, (htakes.congr hsame).requestEach,
      hproper.alike hnames houter⟩
  · rintro t' ⟨calls', draft, ht', hdraft, halike⟩
    obtain ⟨d, hcompile, hnames, hevents⟩ := hq.played hfinish
    obtain ⟨draft', d', hdraft', hcompile', hnames', hevents'⟩ := ht'.played
    obtain rfl : draft' = draft := Option.some.inj (hdraft'.symm.trans hdraft)
    refine ⟨d, d', hcompile, hcompile', fun format => ?_⟩
    rw [← halike.events_eq] at hevents'
    exact (hjoined.writtenAlike _).render_eq hevents hevents' format

/-- A void element with a boolean attribute and two values of one name; the first value and the
second one together would be a character reference, but for the blank between them. -/
def Recording.classesCalls : List SpelledCall :=
  [.openElement (.coded ⟨13⟩), .boolean (.coded .className), .valued (.coded .className) "a&",
    .valued (.coded .id) "u", .valued (.coded .className) "amp;", .closeElement]

theorem Recording.joined_classes : ∃ (t : Recording) (m : Draft String) (items : List (Item String)),
    t.MadeBy classesCalls ∧ Draft.new.requestEach classesCalls = some m ∧
      items = [.element ⟨13⟩ [.mark (.valued .className "a& amp;"), .mark (.valued .id "u")]] ∧
      Item.Joined m.current.items items ∧ (∃ t' : Recording, t'.Describes (m.withItems items)) ∧
      ∀ t' : Recording, t'.Describes (m.withItems items) → t.WrittenAlike t' := by
  have hmade : (ofCalls? classesCalls).isSome := by decide +kernel
  obtain ⟨t, ht⟩ := Option.isSome_iff_exists.1 hmade
  have ht := madeBy_iff.2 ht
  have hdraft : Draft.new.requestEach classesCalls = some ⟨⟨.root, [.element ⟨13⟩
    [.mark (.boolean .className), .mark (.valued .className "a&"), .mark (.valued .id "u"),
      .mark (.valued .className "amp;")]]⟩, [], Names.standard⟩ := rfl
  have hjoined := Item.Joined.element ⟨13⟩ [.className] (.mark (.boolean .className)
    (.mark (.valued .className "a&") (.mark (.valued .id "u")
      (.mark (.valued .className "amp;") .nil)))) .nil
  have hitems : Item.joinNames [.className] [.mark (.boolean .className),
      .mark (.valued .className "a&"), .mark (.valued .id "u"),
      .mark (.valued .className "amp;")] =
        [.mark (.valued .className "a& amp;"), .mark (.valued .id "u")] := rfl
  rw [hitems] at hjoined
  exact ⟨t, _, _, ht, hdraft, rfl, hjoined, joined ht hdraft hjoined⟩

end HtmlTape
