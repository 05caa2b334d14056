import HtmlTape.Writer.Render

/-!
# Handlers fill in a layout

Each handler of a writer looks at the format and at the sink on its own.  Still all of them do the
same two things (`Writer.event_eq`): the layout goes on as `Layout.step` says, and the sink is fed
what the format has for the pieces of the event.  So a course of events feeds the sink the chunks of
all pieces in one row (`Writer.events_eq`), and two writers that stand alike stand alike after the
same events, whatever their formats and sinks are and whether or not these have failed
(`Writer.layout_events_eq`).
-/

namespace HtmlTape

theorem Sink.feed_append {σ : Type} {sink : Sink σ} (s : σ) (as bs : List String) :
    sink.feed s (as ++ bs) =
      match sink.feed s as with
      | (s, none) => sink.feed s bs
      | (s, some e) => (s, some e) := by
  induction as generalizing s with
  | nil => rfl
  | cons a as ih =>
    rw [List.cons_append, feed, feed]
    cases h : sink.write s a with
    | mk s₁ e =>
      cases e with
      | none => exact ih s₁
      | some e => rfl

theorem Sink.text_feed (written : String) (chunks : List String) :
    text.feed written chunks = (written ++ String.join chunks, none) := by
  induction chunks generalizing written with
  | nil => rw [feed, String.join_nil, String.append_empty]
  | cons chunk chunks ih =>
    show text.feed (written ++ chunk) chunks = _
    rw [ih, String.join_cons, String.append_assoc]

theorem Format.allChunks_append (format : Format) (as bs : List Piece) :
    format.allChunks (as ++ bs) = format.allChunks as ++ format.allChunks bs :=
  List.flatMap_append

theorem Format.allChunks_chunks (format : Format) (chunks : List String) :
    format.allChunks (chunks.map .chunk) = chunks := by
  induction chunks with
  | nil => rfl
  | cons chunk chunks ih => exact congrArg (chunk :: ·) ih

theorem Layout.place_countChild (s : Layout) : s.countChild.place = s.place := by
  obtain ⟨place, opened⟩ := s
  cases opened <;> rfl

theorem Layout.textPieces_countChild (s : Layout) (text : String) :
    s.countChild.textPieces text = s.textPieces text := by
  obtain ⟨place, opened⟩ := s
  cases opened <;> rfl

namespace Writer

variable {σ : Type} {sink : Sink σ}

/-! ### Feeding the sink -/

theorem write_eq (w : Writer σ) (chunk : String) : w.write sink chunk = w.feed sink [chunk] := by
  obtain ⟨format, layout, s, error⟩ := w
  cases error with
  | some e => rfl
  | none =>
    rw [write, feed, Sink.feed]
    cases sink.write s chunk with
    | mk s₁ e₁ => cases e₁ <;> rfl

theorem feed_nil (w : Writer σ) : w.feed sink [] = w := by
  obtain ⟨format, layout, s, error⟩ := w
  cases error <;> rfl

theorem feed_feed (w : Writer σ) (as bs : List String) :
    (w.feed sink as).feed sink bs = w.feed sink (as ++ bs) := by
  obtain ⟨format, layout, s, error⟩ := w
  cases error with
  | some e => rfl
  | none =>
    simp only [feed, Sink.feed_append]
    cases sink.feed s as with
    | mk s₁ e₁ => cases e₁ <;> rfl

@[simp] theorem format_feed (w : Writer σ) (chunks : List String) :
    (w.feed sink chunks).format = w.format := by
  obtain ⟨format, layout, s, error⟩ := w
  cases error <;> rfl

@[simp] theorem layout_feed (w : Writer σ) (chunks : List String) :
    (w.feed sink chunks).layout = w.layout := by
  obtain ⟨format, layout, s, error⟩ := w
  cases error <;> rfl

theorem feed_withLayout (w : Writer σ) (layout : Layout) (chunks : List String) :
    (w.withLayout layout).feed sink chunks = (w.feed sink chunks).withLayout layout := by
  obtain ⟨format, layout, s, error⟩ := w
  cases error <;> rfl

theorem newlineIf_eq (w : Writer σ) (condition : Bool) :
    w.newlineIf sink condition = w.feed sink (w.format.allChunks (Layout.breakIf condition)) := by
  cases condition with
  | false => exact (feed_nil w).symm
  | true =>
    show w.newline sink = w.feed sink (w.format.chunks .lineBreak ++ [])
    rw [newline, Format.chunks, List.append_nil]
    cases w.format.mode with
    | minified => exact (feed_nil w).symm
    | pretty => exact write_eq w _

theorem writeText_eq (w : Writer σ) (text : String) :
    w.writeText sink text = w.feed sink (w.format.allChunks (w.layout.textPieces text)) := by
  rw [writeText, Layout.textPieces]
  split
  · exact write_eq w text
  · rw [Format.allChunks_chunks]

/-! ### Handlers -/

@[simp] theorem layout_withLayout (w : Writer σ) (layout : Layout) :
    (w.withLayout layout).layout = layout := rfl

@[simp] theorem format_withLayout (w : Writer σ) (layout : Layout) :
    (w.withLayout layout).format = w.format := rfl

@[simp] theorem withLayout_withLayout (w : Writer σ) (layout layout' : Layout) :
    (w.withLayout layout).withLayout layout' = w.withLayout layout' := rfl

/-- Feed the sink what the format has for the pieces of an event, and go on with the layout. -/
def layOut (w : Writer σ) (sink : Sink σ) (e : Event) : Writer σ :=
  (w.feed sink (w.format.allChunks (w.layout.step e).1)).withLayout (w.layout.step e).2

/-- An event that only writes. -/
theorem eq_layOut {w : Writer σ} {e : Event} {chunks : List String}
    (hchunks : w.format.allChunks (w.layout.step e).1 = chunks)
    (hlayout : (w.layout.step e).2 = w.layout) : w.feed sink chunks = w.layOut sink e := by
  rw [layOut, hchunks, hlayout]
  exact congrArg (w.feed sink chunks).withLayout (layout_feed w chunks)

theorem self_eq_layOut {w : Writer σ} {e : Event} (h : w.layout.step e = ([], w.layout)) :
    w = w.layOut sink e := by
  have hchunks : w.format.allChunks (w.layout.step e).1 = [] := by
    rw [h]
    rfl
  exact (feed_nil w).symm.trans (eq_layOut hchunks (by rw [h]))

theorem doctype_eq (w : Writer σ) : w.doctype sink = w.layOut sink .doctype := by
  simp only [doctype, countChild, moveTo, newlineIf_eq, write_eq, feed_feed, feed_withLayout,
    layout_withLayout, format_withLayout, withLayout_withLayout, Layout.place_countChild]
  rw [layOut, Layout.step, Format.allChunks_append]
  rfl

theorem startTag_eq (w : Writer σ) (name : String) (kind : ElementKind) :
    w.startTag sink name kind = w.layOut sink (.startTag name kind) := by
  simp only [startTag, countChild, newlineIf_eq, write_eq, feed_feed, feed_withLayout,
    layout_withLayout, format_withLayout, withLayout_withLayout, Layout.place_countChild]
  rw [layOut, Layout.step, Format.allChunks_append, List.append_assoc]
  rfl

theorem startTagEnd_eq (w : Writer σ) (hasChildren : Bool) :
    w.startTagEnd sink = w.layOut sink (.startTagEnd hasChildren) := by
  rw [startTagEnd, write_eq]
  simp only [moveTo, layout_feed]
  cases hopened : w.layout.opened with
  | nil => exact eq_layOut rfl (by rw [Layout.step, hopened])
  | cons innermost outer =>
    rw [layOut, Layout.step, hopened]
    rfl

theorem voidEnd_eq (w : Writer σ) : w.voidEnd sink = w.layOut sink .voidEnd := by
  rw [voidEnd, layOut]
  cases hstyle : w.format.voidStyle with
  | html | selfClosing =>
    simp only [write_eq, layout_feed, Layout.step, Format.allChunks, List.flatMap_singleton,
      Format.chunks, hstyle, VoidStyle.text]

/-- The breaks around a text are told by the place at which it stands. -/
theorem text_eq (w : Writer σ) (text : String) : w.text sink text = w.layOut sink (.text text) := by
  rw [Writer.text]
  by_cases hempty : text.isEmpty
  · rw [if_pos hempty]
    exact self_eq_layOut (if_pos hempty)
  rw [if_neg hempty, layOut, Layout.step, if_neg hempty]
  simp only [countChild, moveTo, newlineIf_eq, writeText_eq, feed_feed, feed_withLayout,
    layout_withLayout, format_withLayout, format_feed, Layout.place_countChild,
    Layout.textPieces_countChild, Format.allChunks_append]
  cases w.layout.place with
  | script => rfl
  | start | blockStart | blockEnd | phrase =>
    exact congrArg (fun chunks => withLayout (w.feed sink chunks) _) (List.append_nil _).symm

theorem endTag_eq (w : Writer σ) (name : String) (kind : ElementKind) :
    w.endTag sink name = w.layOut sink (.endTag name kind) := by
  rw [endTag]
  cases hopened : w.layout.opened with
  | nil =>
    have hstep : w.layout.step (.endTag name kind) =
        ([.chunk "</", .chunk name, .chunk ">"], w.layout) := by
      rw [Layout.step, hopened]
    simp only [write_eq, feed_feed]
    exact eq_layOut (by rw [hstep]; rfl) (by rw [hstep])
  | cons innermost outer =>
    rw [layOut, Layout.step, Layout.leave, hopened]
    simp only [newlineIf_eq, write_eq, feed_feed, feed_withLayout, moveTo, Format.allChunks_append,
      layout_withLayout, format_withLayout, withLayout_withLayout, List.append_assoc]
    rfl

/-- **Every handler follows the layout.** -/
theorem event_eq (w : Writer σ) (e : Event) : w.event sink e = w.layOut sink e := by
  cases e with
  | documentStart => exact self_eq_layOut rfl
  | doctype => exact doctype_eq w
  | startTag name kind => exact startTag_eq w name kind
  | attributeName name =>
    rw [event, attributeName, write_eq, write_eq, feed_feed]
    exact eq_layOut rfl rfl
  | firstValue value =>
    rw [event, firstValue, write_eq, feed_feed]
    exact eq_layOut (congrArg ("=\"" :: ·) (Format.allChunks_chunks _ _)) rfl
  | nextValue value =>
    rw [event, nextValue, write_eq, feed_feed]
    exact eq_layOut (congrArg (" " :: ·) (Format.allChunks_chunks _ _)) rfl
  | valueEnd =>
    rw [event, valueEnd, write_eq]
    exact eq_layOut rfl rfl
  | startTagEnd hasChildren => exact startTagEnd_eq w hasChildren
  | voidEnd => exact voidEnd_eq w
  | text text => exact text_eq w text
  | raw raw =>
    rw [event, Writer.raw]
    by_cases hempty : raw.isEmpty
    · rw [if_pos hempty]
      exact self_eq_layOut (if_pos hempty)
    · rw [if_neg hempty, layOut, Layout.step, if_neg hempty, countChild, write_eq, feed_withLayout]
      rfl
  | endTag name kind => exact endTag_eq w name kind
  | documentEnd =>
    rw [event, documentEnd, newlineIf_eq]
    exact eq_layOut rfl rfl

/-! ### Courses of events -/

/-- **A writer feeds its sink the chunks of all pieces in one row**, up to the first one that is
refused. -/
theorem events_eq (w : Writer σ) (es : List Event) : w.events sink es =
    (w.feed sink (w.format.allChunks (w.layout.run es).1)).withLayout (w.layout.run es).2 := by
  induction es generalizing w with
  | nil => exact congrArg (withLayout · w.layout) (feed_nil w).symm
  | cons e es ih =>
    have hrun : w.layout.run (e :: es) =
        ((w.layout.step e).1 ++ ((w.layout.step e).2.run es).1,
          ((w.layout.step e).2.run es).2) := rfl
    rw [events, List.foldl_cons, ← events, ih, event_eq, layOut, hrun, Format.allChunks_append]
    simp only [layout_withLayout, format_withLayout, format_feed, feed_withLayout, feed_feed,
      withLayout_withLayout]

/-- **Writers that stand alike stand alike after the same events**: the place, the open elements and
the number of things in each do not depend on the format, and not on the sink either. -/
theorem layout_events_eq {τ : Type} {sink' : Sink τ} {w : Writer σ} {v : Writer τ}
    (h : w.layout = v.layout) (es : List Event) :
    (w.events sink es).layout = (v.events sink' es).layout := by
  rw [events_eq, events_eq, layout_withLayout, layout_withLayout, h]

end Writer

/-! ### Documents -/

namespace Document

variable {σ : Type} {d : Document} {es : List Event}

theorem write_eq (h : d.events = .ok es) (format : Format) (sink : Sink σ) (s : σ) :
    d.write format sink s = .ok ⟨format, (Layout.start.run es).2,
      (sink.feed s (format.allChunks (pieces es))).1,
      (sink.feed s (format.allChunks (pieces es))).2⟩ := by
  rw [Document.write, h]
  exact congrArg Except.ok (Writer.events_eq _ es)

theorem render_eq (d : Document) (format : Format) :
    d.render format = d.events.map fun es => format.text (pieces es) := by
  cases h : d.events with
  | error fault => rw [Document.render, Document.write, h]; rfl
  | ok es =>
    rw [Document.render, write_eq h, Sink.text_feed, String.empty_append]
    rfl

end Document

end HtmlTape
