import HtmlTape.Proofs.Writer.Script

/-!
# Inline content in pretty markup

An inline item is a text with anything in it, or a tag of a phrasing element (`Event.Inline`).
Outside of scripts and style sheets an inline item always leaves the layout in the midst of inline
content, and there the next inline item is written without a break before it
(`Layout.run_inline`).  So between two inline items that follow one another there is no break, but
for one case: a text that comes right after the end of a script or style sheet is a line of its own,
and ends with a break unless it ends its line itself (`Recording.inline_of_madeBy`).

What the layout knows of the events before an item is kept by every event (`Layout.Suits`).
-/

namespace HtmlTape

namespace Event

def writes : Event → Bool
  | documentStart => false
  | text value | raw value => !value.isEmpty
  | _ => true

def endsRawText : Event → Bool
  | endTag _ kind => kind.isRawText
  | _ => false

/-- The event is a text that does not end its line. -/
def leavesLine : Event → Bool
  | text value => !Layout.endsLine value
  | _ => false

/-- The events of an inline item. -/
inductive Inline : List Event → Prop
  | text {value : String} (h : value.isEmpty = false) : Inline [.text value]
  | startTag {name : String} {kind : ElementKind} {attributes : List Event} (hasChildren : Bool)
      (hkind : kind.isPhrasing) (hattrs : ∀ e ∈ attributes, e.isAttribute) :
      Inline (.startTag name kind :: attributes ++ [.startTagEnd hasChildren])
  | voidTag {name : String} {kind : ElementKind} {attributes : List Event}
      (hkind : kind.isPhrasing) (hattrs : ∀ e ∈ attributes, e.isAttribute) :
      Inline (.startTag name kind :: attributes ++ [.voidEnd])
  | endTag {name : String} {kind : ElementKind} (hkind : kind.isPhrasing) :
      Inline [.endTag name kind]

end Event

/-- The last thing that was written is the end of a script or style sheet. -/
def afterRawText (es : List Event) : Bool :=
  (es.filter Event.writes).getLast?.any Event.endsRawText

/-- A break stands behind an inline item: it is a text behind a script or style sheet, and does not
end its line. -/
def endsOwnLine (before item : List Event) : Bool :=
  afterRawText before && item.any Event.leavesLine

theorem afterRawText_concat (es : List Event) (e : Event) :
    afterRawText (es ++ [e]) = if e.writes then e.endsRawText else afterRawText es := by
  rw [afterRawText, List.filter_append]
  by_cases he : e.writes
  · simp [he]
  · simp [he, afterRawText]

/-! ### What the layout knows of the events before -/

structure OpenElement.HasKind (o : OpenElement) (kind : ElementKind) : Prop where
  after : o.after = (ofKind kind).after
  inside : o.inside = (ofKind kind).inside
  isRawText : o.isRawText = kind.isRawText

theorem OpenElement.hasKind_ofKind (kind : ElementKind) : (ofKind kind).HasKind kind :=
  ⟨rfl, rfl, Layout.isRawText_ofKind kind⟩

theorem OpenElement.after_eq_script_iff (kind : ElementKind) :
    (ofKind kind).after = .script ↔ kind.isRawText := by
  rw [ofKind]
  by_cases hraw : kind.isRawText
  · simp [hraw]
  · by_cases hphrasing : kind.isPhrasing <;> simp [hraw, hphrasing]

theorem OpenElement.inside_eq_script_iff (kind : ElementKind) :
    (ofKind kind).inside = .script ↔ kind.isRawText := by
  rw [ofKind]
  by_cases hraw : kind.isRawText
  · simp [hraw]
  · by_cases hphrasing : kind.isPhrasing <;> simp [hraw, hphrasing]

theorem OpenElement.phrase_of_isPhrasing {kind : ElementKind} (h : kind.isPhrasing)
    (hraw : kind.isRawText = false) :
    (ofKind kind).after = .phrase ∧ (ofKind kind).inside = .phrase := by
  rw [ofKind, hraw, h]
  exact ⟨rfl, rfl⟩

namespace Layout

variable {s : Layout} {n n' : Nesting} {es es' : List Event} {e : Event}

/-- The layout suits the place where a listener stands after the events. -/
structure Suits (s : Layout) (n : Nesting) (es : List Event) : Prop where
  opened : List.Forall₂ OpenElement.HasKind s.opened n.kinds
  place : n.awaits = .content → (∀ kind ∈ n.kinds, kind.isRawText = false) →
    (s.place = .script ↔ afterRawText es)

theorem suits_start : start.Suits ⟨[], .content⟩ [] :=
  ⟨.nil, fun _ _ => by decide⟩

theorem Suits.countChild (h : s.Suits n es) :
    List.Forall₂ OpenElement.HasKind s.countChild.opened n.kinds := by
  obtain ⟨place, opened⟩ := s
  obtain ⟨kinds, awaits⟩ := n
  cases h.opened with
  | nil => exact .nil
  | cons ho hrest => exact .cons ⟨ho.after, ho.inside, ho.isRawText⟩ hrest

theorem Suits.escapes (h : s.Suits n es) (hraw : ∀ kind ∈ n.kinds, kind.isRawText = false) :
    s.Escapes := by
  have hall : ∀ {opened kinds}, List.Forall₂ OpenElement.HasKind opened kinds →
      (∀ kind ∈ kinds, kind.isRawText = false) → ∀ o ∈ opened, o.isRawText = false := by
    intro opened kinds hopened
    induction hopened with
    | nil => exact fun _ o ho => by cases ho
    | cons hkind _ ih =>
      intro hraw
      obtain ⟨hfirst, hrest⟩ := List.forall_mem_cons.1 hraw
      exact List.forall_mem_cons.2 ⟨hkind.isRawText.trans hfirst, ih hrest⟩
  exact hall h.opened hraw

theorem step_of_not_writes (s : Layout) (he : e.writes = false) : s.step e = ([], s) := by
  cases e with
  | documentStart => rfl
  | text value | raw value =>
    have hempty : value.isEmpty := by simpa [Event.writes] using he
    rw [step, if_pos hempty]
  | _ => cases he

theorem run_of_not_writes (s : Layout) (h : ∀ e ∈ es, e.writes = false) : s.run es = ([], s) := by
  induction es with
  | nil => rfl
  | cons e es ih =>
    obtain ⟨he, hes⟩ := List.forall_mem_cons.1 h
    rw [run, step_of_not_writes s he]
    show ([] ++ (s.run es).1, (s.run es).2) = _
    rw [ih hes]
    rfl

/-- After an event for which something is written, the place depends on this event alone. -/
theorem Suits.of_writes (he : e.writes)
    (hopened : List.Forall₂ OpenElement.HasKind s.opened n.kinds)
    (hplace : n.awaits = .content → (∀ kind ∈ n.kinds, kind.isRawText = false) →
      (s.place = .script ↔ e.endsRawText)) : s.Suits n (es ++ [e]) := by
  refine ⟨hopened, fun hcontent hraw => ?_⟩
  rw [afterRawText_concat, if_pos he]
  exact hplace hcontent hraw

/-- **What the layout knows is kept by every event.** -/
theorem Suits.step (h : s.Suits n es) (hstep : n.Step e n') :
    (s.step e).2.Suits n' (es ++ [e]) := by
  by_cases he : e.writes
  · cases hstep with
    | documentStart => cases he
    | doctype => exact .of_writes he h.countChild fun _ _ => by simp [Layout.step, Event.endsRawText]
    | text value | raw value =>
      have hempty : ¬ value.isEmpty := by simpa [Event.writes] using he
      rw [Layout.step, if_neg hempty]
      exact .of_writes he h.countChild fun _ _ => by simp [Event.endsRawText]
    | startTag name hkind =>
      exact .of_writes he (.cons (OpenElement.hasKind_ofKind _) h.countChild)
        fun hcontent => by cases hcontent
    | inTag hattr =>
      rw [step_of_isAttribute s hattr]
      exact .of_writes he h.opened fun hcontent => by cases hcontent
    | @startTagEnd _ kind hasChildren =>
      obtain ⟨place, opened⟩ := s
      cases h.opened with
      | @cons o _ _ _ ho hrest =>
        refine .of_writes he (.cons ho hrest) fun _ hraw => ?_
        show o.inside = Place.script ↔ false = true
        rw [ho.inside, OpenElement.inside_eq_script_iff, hraw kind List.mem_cons_self]
    | voidEnd hkind =>
      obtain ⟨place, opened⟩ := s
      cases h.opened with
      | @cons o kind _ _ ho hrest =>
        refine .of_writes he hrest fun _ _ => ?_
        show o.after = Place.script ↔ false = true
        rw [ho.after, OpenElement.after_eq_script_iff, hkind]
    | endTag name kind =>
      obtain ⟨place, opened⟩ := s
      cases h.opened with
      | @cons o _ _ _ ho hrest =>
        refine .of_writes he hrest fun _ _ => ?_
        show o.after = Place.script ↔ kind.isRawText = true
        rw [ho.after, OpenElement.after_eq_script_iff]
    | documentEnd => exact .of_writes he h.opened fun hcontent => by cases hcontent
  · have he : e.writes = false := Bool.eq_false_iff.2 he
    have hsame : n' = n := by
      cases hstep with
      | inTag hattr => rfl
      | documentStart | doctype | text | raw => rfl
      | _ => cases he
    rw [step_of_not_writes s he, hsame]
    refine ⟨h.opened, fun hcontent hraw => ?_⟩
    rw [afterRawText_concat, he]
    exact h.place hcontent hraw

theorem Suits.run (h : s.Suits n es) (hrun : n.Run es' n') :
    (s.run es').2.Suits n' (es ++ es') := by
  induction hrun generalizing s es with
  | nil => rwa [List.append_nil]
  | cons hstep _ ih =>
    rw [run_cons_snd, List.append_cons]
    exact ih (h.step hstep)

/-! ### Inline items -/

theorem run_attributes_fst (s s' : Layout) (h : ∀ e ∈ es, e.isAttribute) :
    (s.run es).1 = (s'.run es).1 := by
  induction es with
  | nil => rfl
  | cons e es ih =>
    obtain ⟨he, hes⟩ := List.forall_mem_cons.1 h
    have hstep : ∀ s : Layout, s.step e = ((start.step e).1, s) := by
      intro s
      cases e <;> first | rfl | cases he
    rw [run_cons_fst, run_cons_fst, hstep s, hstep s']
    exact congrArg ((start.step e).1 ++ ·) (ih hes)

theorem run_tag (s : Layout) {attributes : List Event} (hattrs : ∀ e ∈ attributes, e.isAttribute)
    (name : String) (kind : ElementKind) {last : Event} {close : Piece}
    (hlast : ∀ s : Layout, (s.step last).1 = [close]) :
    (s.run (.startTag name kind :: attributes ++ [last])).1 = breakIf (breaksBefore s.place kind) ++
      ([.chunk "<", .chunk name] ++ (start.run attributes).1 ++ [close]) := by
  rw [List.cons_append, run_cons_fst, run_append, run_cons_fst, hlast,
    run_attributes_fst _ start hattrs]
  simp [step, run]

/-- A tag of a phrasing element is written as it is on its own, with a break before it if a block
has ended there. -/
theorem run_phrasingTag (s : Layout) {attributes : List Event}
    (hattrs : ∀ e ∈ attributes, e.isAttribute) {kind : ElementKind} (hkind : kind.isPhrasing)
    (name : String) {last : Event} {close : Piece}
    (hlast : ∀ s : Layout, (s.step last).1 = [close]) :
    (s.run (.startTag name kind :: attributes ++ [last])).1 = breakIf (s.place == .blockEnd) ++
      pieces (.startTag name kind :: attributes ++ [last]) := by
  rw [pieces, run_tag s hattrs name kind hlast, run_tag start hattrs name kind hlast, breaksBefore,
    breaksBefore, if_pos hkind, if_pos hkind]
  rfl

theorem any_leavesLine_tag {attributes : List Event} (hattrs : ∀ e ∈ attributes, e.isAttribute)
    (name : String) (kind : ElementKind) {last : Event} (hlast : last.leavesLine = false) :
    (.startTag name kind :: attributes ++ [last]).any Event.leavesLine = false := by
  have hnone : attributes.any Event.leavesLine = false := by
    refine List.any_eq_false.2 fun e he => ?_
    have := hattrs e he
    cases e <;> simp_all [Event.leavesLine, Event.isAttribute]
  rw [List.any_append, List.any_cons, hnone, List.any_cons, hlast]
  rfl

/-- **What is written for an inline item** is what is written for the item on its own.  A break
comes before it only outside of inline content, and one comes behind it if it is a text in the
place of a script that does not end its line. -/
theorem run_inline (hs : s.inRawText = false) (h : Event.Inline es) :
    ∃ broken, (s.run es).1 = breakIf broken ++ pieces es ++
        breakIf (s.place == .script && es.any Event.leavesLine) ∧
      (s.place = .phrase → broken = false) := by
  cases h with
  | @text value h =>
    have hown : pieces [.text value] = s.textPieces value := by
      rw [pieces, run_cons_fst, step, h, textPieces, textPieces, hs]
      simp [run, breakIf, start, inRawText]
    refine ⟨(s.place == .script || s.place == .blockEnd) && !startsLine value, ?_, fun hplace => ?_⟩
    · rw [hown, run_cons_fst, step, h]
      simp [run, Event.leavesLine]
    · rw [hplace]
      rfl
  | startTag hasChildren hkind hattrs =>
    refine ⟨s.place == .blockEnd, ?_, fun hplace => by rw [hplace]; rfl⟩
    rw [any_leavesLine_tag hattrs _ _ rfl, Bool.and_false,
      run_phrasingTag s hattrs hkind _ (fun _ => rfl)]
    exact (List.append_nil _).symm
  | voidTag hkind hattrs =>
    refine ⟨s.place == .blockEnd, ?_, fun hplace => by rw [hplace]; rfl⟩
    rw [any_leavesLine_tag hattrs _ _ rfl, Bool.and_false,
      run_phrasingTag s hattrs hkind _ (fun _ => rfl)]
    exact (List.append_nil _).symm
  | @endTag name kind hkind =>
    obtain ⟨place, opened⟩ := s
    cases opened with
    | nil => exact ⟨false, by simp [run, step, pieces, start, breakIf, Event.leavesLine], fun _ => rfl⟩
    | cons o outer =>
      refine ⟨breaksBeforeEnd place o, ?_, fun hplace => ?_⟩
      · simp [run, step, pieces, start, breakIf, Event.leavesLine]
      · obtain rfl : place = .phrase := hplace
        simp [breaksBeforeEnd]

theorem run_tag_snd (s : Layout) {attributes : List Event}
    (hattrs : ∀ e ∈ attributes, e.isAttribute) (name : String) (kind : ElementKind) (last : Event) :
    (s.run (.startTag name kind :: attributes ++ [last])).2 =
      (step { s with opened := .ofKind kind :: s.countChild.opened } last).2 := by
  rw [List.cons_append, run_cons_snd, run_append, run_attributes _ hattrs]
  rfl

/-- **An inline item leads into inline content**, and opens no script or style sheet. -/
theorem Suits.inline (h : s.Suits n es) (hrun : n.Run es' n') (hitem : Event.Inline es')
    (hraw : ∀ kind ∈ n.kinds, kind.isRawText = false) :
    (s.run es').2.place = .phrase ∧ ∀ kind ∈ n'.kinds, kind.isRawText = false := by
  cases hitem with
  | text hempty =>
    rw [run_cons_snd, Layout.step, hempty, hrun.kinds_eq]
    exact ⟨rfl, hraw⟩
  | startTag hasChildren hkind hattrs =>
    obtain ⟨hnot, hkinds⟩ := hrun.of_tag hattrs hkind
    rw [run_tag_snd s hattrs, hkinds]
    exact ⟨(OpenElement.phrase_of_isPhrasing hkind hnot).2, List.forall_mem_cons.2 ⟨hnot, hraw⟩⟩
  | voidTag hkind hattrs =>
    obtain ⟨hnot, hkinds⟩ := hrun.of_tag hattrs hkind
    rw [run_tag_snd s hattrs, hkinds]
    exact ⟨(OpenElement.phrase_of_isPhrasing hkind hnot).1, hraw⟩
  | endTag hkind =>
    obtain ⟨place, opened⟩ := s
    cases hrun with
    | cons step rest =>
      cases rest
      cases step with
      | endTag name kind =>
        obtain ⟨hnot, hrest⟩ := List.forall_mem_cons.1 hraw
        cases h.opened with
        | cons ho _ =>
          refine ⟨?_, hrest⟩
          exact ho.after.trans (OpenElement.phrase_of_isPhrasing hkind hnot).1
      | inTag he => cases he

theorem awaits_of_inline (hrun : n.Run es n') (hitem : Event.Inline es) :
    n.awaits = .content := by
  cases hitem with
  | text | startTag | voidTag | endTag =>
    cases hrun with
    | cons step rest => cases step <;> first | rfl | contradiction

/-- **Two inline items that follow one another**, outside of scripts and style sheets. -/
theorem pieces_inline {before first blanks second : List Event}
    (hbefore : Nesting.Run ⟨[], .content⟩ before n) (hrun : n.Run first n')
    (hfirst : Event.Inline first) (hsecond : Event.Inline second)
    (hblanks : ∀ e ∈ blanks, e.writes = false) (hraw : ∀ kind ∈ n.kinds, kind.isRawText = false) :
    ∃ broken, pieces (before ++ first ++ blanks ++ second) = pieces before ++ breakIf broken ++
      pieces first ++ breakIf (endsOwnLine before first) ++ pieces second := by
  have hs : (start.run before).2.Suits n before := suits_start.run hbefore
  have hs' := hs.run hrun
  obtain ⟨hphrase, hraw'⟩ := hs.inline hrun hfirst hraw
  obtain ⟨broken, hpieces, -⟩ := run_inline (hs.escapes hraw).inRawText hfirst
  obtain ⟨broken', hpieces', hnone⟩ := run_inline (hs'.escapes hraw').inRawText hsecond
  have hplace : ((start.run before).2.place == .script) = afterRawText before :=
    Bool.eq_iff_iff.2 (beq_iff_eq.trans (hs.place (awaits_of_inline hrun hfirst) hraw))
  refine ⟨broken, ?_⟩
  rw [hplace] at hpieces
  rw [hnone hphrase, hphrase] at hpieces'
  rw [pieces, run_append, run_append, run_append, run_of_not_writes _ hblanks]
  simp only [hpieces, hpieces', List.append_nil]
  simp [pieces, breakIf, endsOwnLine]

end Layout

/-! ### Documents -/

theorem Layout.lineBreak_notMem_attributes {attributes : List Event}
    (h : ∀ e ∈ attributes, e.isAttribute) (s : Layout) : .lineBreak ∉ (s.run attributes).1 := by
  induction attributes generalizing s with
  | nil => simp [run]
  | cons e es ih =>
    obtain ⟨he, hes⟩ := List.forall_mem_cons.1 h
    rw [run_cons_fst, List.mem_append, not_or]
    refine ⟨?_, ih hes _⟩
    cases e with
    | attributeName | firstValue | nextValue | valueEnd => simp [step, valuePieces]
    | _ => cases he

/-- No break is part of an inline item. -/
theorem Event.Inline.lineBreak_notMem {es : List Event} (h : Inline es) :
    .lineBreak ∉ pieces es := by
  have htag : ∀ {attributes : List Event} {name : String} {kind : ElementKind} {last : Event}
      {close : Piece}, (∀ e ∈ attributes, e.isAttribute) → kind.isPhrasing → close ≠ .lineBreak →
      (∀ s : Layout, (s.step last).1 = [close]) →
      .lineBreak ∉ pieces (.startTag name kind :: attributes ++ [last]) := by
    intro attributes name kind last close hattrs hkind hclose hlast
    have hinner := Layout.lineBreak_notMem_attributes hattrs Layout.start
    rw [pieces, Layout.run_tag _ hattrs _ _ hlast, Layout.breaksBefore, if_pos hkind]
    simp [Layout.breakIf, Layout.start, hclose.symm] at hinner ⊢
    exact hinner
  cases h with
  | text h => simp [pieces, Layout.run, Layout.step, h, Layout.breakIf, Layout.start,
      Layout.textPieces, Layout.inRawText]
  | startTag hasChildren hkind hattrs => exact htag hattrs hkind (by simp) fun _ => rfl
  | voidTag hkind hattrs => exact htag hattrs hkind (by simp) fun _ => rfl
  | endTag hkind => simp [pieces, Layout.run, Layout.step, Layout.start]

theorem Format.text_append (format : Format) (as bs : List Piece) :
    format.text (as ++ bs) = format.text as ++ format.text bs := by
  rw [text, allChunks, List.flatMap_append, String.join_append]
  rfl

/-- The pretty markup of the document goes up to the first of two items, perhaps with a break before
it, and has the two items next, each as it is written on its own and without a break inside.  A
break stands between them only if the first one ends its own line. -/
structure Document.WritesInline (d : Document) (before first second : List Event) : Prop where
  unbroken : .lineBreak ∉ pieces first ∧ .lineBreak ∉ pieces second
  content : ∀ (lineEnd : LineEnd) (voidStyle : VoidStyle), ∃ lead rest : String,
    (lead = "" ∨ lead = lineEnd.text) ∧ d.render ⟨.pretty, lineEnd, voidStyle⟩ =
      .ok (Format.text ⟨.pretty, lineEnd, voidStyle⟩ (pieces before) ++ lead ++
        Format.text ⟨.pretty, lineEnd, voidStyle⟩ (pieces first) ++
        (if endsOwnLine before first then lineEnd.text else "") ++
        Format.text ⟨.pretty, lineEnd, voidStyle⟩ (pieces second) ++ rest)

/-- **Inline items in pretty markup.**  Where the events of a document have two inline items one
after the other, outside of scripts and style sheets and with nothing written between them, its
pretty markup goes up to the first item, perhaps with a break before it, and has the two items next,
each as it is written on its own.  No break stands between them, unless the first one is a text
right behind a script or style sheet that does not end its line itself. -/
theorem Recording.inline_of_madeBy {t : Recording} {calls : List SpelledCall}
    (h : t.MadeBy calls) :
    ∃ (d : Document) (es : List Event), t.compile = .ok d ∧ d.events = .ok es ∧
      ∀ before first blanks second after : List Event,
        es = before ++ first ++ blanks ++ second ++ after →
        Event.Inline first → Event.Inline second → (∀ e ∈ blanks, e.writes = false) →
        (∀ kind ∈ openKinds before, kind.isRawText = false) →
        d.WritesInline before first second := by
  obtain ⟨draft, d, -, hcompile, -, hevents⟩ := h.played
  refine ⟨d, _, hcompile, hevents, ?_⟩
  intro before first blanks second after hes hfirst hsecond hblanks hraw
  have hrun := Nesting.run_document draft.names draft.trees
  rw [hes, List.append_assoc, List.append_assoc, List.append_assoc] at hrun
  obtain ⟨n, hbefore, hrun⟩ := hrun.split
  obtain ⟨n', hitem, -⟩ := hrun.split
  rw [openKinds, ← hbefore.kinds_eq] at hraw
  obtain ⟨broken, hpieces⟩ := Layout.pieces_inline hbefore hitem hfirst hsecond hblanks hraw
  refine ⟨⟨hfirst.lineBreak_notMem, hsecond.lineBreak_notMem⟩, fun lineEnd voidStyle => ?_⟩
  have hbreak : ∀ b, Format.text ⟨.pretty, lineEnd, voidStyle⟩ (Layout.breakIf b) =
      if b then lineEnd.text else "" := by
    intro b
    cases b with
    | true => exact (String.join_cons ..).trans String.append_empty
    | false => rfl
  refine ⟨if broken then lineEnd.text else "", Format.text ⟨.pretty, lineEnd, voidStyle⟩
    ((Layout.start.run (before ++ first ++ blanks ++ second)).2.run after).1, ?_, ?_⟩
  · cases broken with
    | true => exact .inr rfl
    | false => exact .inl rfl
  · rw [Document.render_eq, hevents, hes]
    show Except.ok (Format.text _ (Layout.start.run _).1) = _
    rw [Layout.run_append, Format.text_append, ← pieces, hpieces, Format.text_append,
      Format.text_append, Format.text_append, Format.text_append, hbreak, hbreak]

/-! ### Two texts behind a script -/

/-- An empty script with two texts behind it. -/
def Recording.footnoteCalls : List SpelledCall :=
  [.openElement (.spelled "script"), .closeElement, .text "a", .text "b"]

def Recording.footnote : Recording where
  words := #[245, 5, 82, 0, 246, 240, 0, 1, 240, 1, 1, 248, 3, 0, 5, 8]
  pool := "ab"
  names := Names.standard
  root := 11
  counters := ⟨1, 0, 2, 0, 3, 1⟩

theorem Recording.footnote_inline : footnote.MadeBy footnoteCalls ∧
    ∃ (d : Document) (es : List Event), footnote.compile = .ok d ∧ d.events = .ok es ∧
      ∀ before first blanks second after : List Event,
        es = before ++ first ++ blanks ++ second ++ after →
        Event.Inline first → Event.Inline second → (∀ e ∈ blanks, e.writes = false) →
        (∀ kind ∈ openKinds before, kind.isRawText = false) →
        d.WritesInline before first second := by
  have hfootnote : footnote.MadeBy footnoteCalls := by decide +kernel
  exact ⟨hfootnote, inline_of_madeBy hfootnote⟩

def Event.emptyScript : List Event :=
  [.documentStart, .startTag "script" .rawText, .startTagEnd false, .endTag "script" .rawText]

/-- **A text right behind a script is broken from the text behind it**: no break between the two is
not what pretty markup has. -/
theorem Recording.footnote_broken : footnote.MadeBy footnoteCalls ∧
    ∃ d : Document, footnote.compile = .ok d ∧
      d.events = .ok (Event.emptyScript ++ [.text "a"] ++ [.text "b"] ++ [.documentEnd]) ∧
      Event.Inline [.text "a"] ∧ Event.Inline [.text "b"] ∧
      (∀ kind ∈ openKinds Event.emptyScript, kind.isRawText = false) ∧
      d.render .pretty = .ok "<script></script>\na\nb\n" ∧
      ∀ lead rest : String, (lead = "" ∨ lead = "\n") → d.render .pretty ≠
        .ok (Format.pretty.text (pieces Event.emptyScript) ++ lead ++
          Format.pretty.text (pieces [.text "a"]) ++ Format.pretty.text (pieces [.text "b"]) ++
            rest) := by
  have hfootnote : footnote.MadeBy footnoteCalls := by decide +kernel
  obtain ⟨draft, d, hdraft, hcompile, -, hevents⟩ := hfootnote.played
  have htrees : (Draft.new.requestEach footnoteCalls).map (fun draft : Draft String =>
      .documentStart :: Tree.eventsAll draft.names draft.trees ++ [.documentEnd]) =
      some (Event.emptyScript ++ [.text "a"] ++ [.text "b"] ++ [.documentEnd]) := by
    decide +kernel
  rw [hdraft] at htrees
  replace hevents := hevents.trans (congrArg Except.ok (Option.some.inj htrees))
  have hpretty : d.render .pretty = .ok "<script></script>\na\nb\n" := by
    rw [Document.render_eq, hevents]
    show Except.ok (Format.text _ _) = _
    decide +kernel
  refine ⟨hfootnote, d, hcompile, hevents, .text (by decide), .text (by decide), by decide, hpretty,
    fun lead rest hlead h => ?_⟩
  have hne : ∀ lead ∈ ["", "\n"], ¬ (Format.pretty.text (pieces Event.emptyScript) ++ lead ++
      Format.pretty.text (pieces [.text "a"]) ++ Format.pretty.text (pieces [.text "b"])).toList <+:
        "<script></script>\na\nb\n".toList := by
    decide +kernel
  refine hne lead (by simpa using hlead) ⟨rest.toList, ?_⟩
  rw [← String.toList_append, ← Except.ok.inj (hpretty.symm.trans h)]

end HtmlTape
