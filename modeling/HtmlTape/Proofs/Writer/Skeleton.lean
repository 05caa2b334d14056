import HtmlTape.Proofs.Markup.Written
import HtmlTape.Proofs.Name.Sound
import HtmlTape.Proofs.Writer.Fed

/-!
# One skeleton for all formats

The handlers of a writer ask for its format at breaks and at the ends of void tags, and nowhere
else (`Writer.event_eq`); where the writer stands does not depend on the answers
(`Writer.layout_events_eq`).  So all formats of a document fill in one skeleton
(`Document.Skeleton`): minified markup is pretty markup without its breaks, and pretty markup with
the two ends of lines differs by the ends of lines alone if no literal has a line feed of its own
(`Recording.skeleton_of_madeBy`).

The last part needs that no chunk of a piece has a line feed.  Chunks are made of punctuation, of
names, which are legal, and of what is written for the literals (`Layout.run_chunks`).
-/

namespace HtmlTape

/-! ### Filling in pieces -/

/-- What is written for a piece, with a text for the breaks and one for the ends of void tags. -/
def Piece.fill (lineBreak voidClose : String) : Piece → String
  | chunk text => text
  | .lineBreak => lineBreak
  | .voidClose => voidClose

def Piece.fillAll (lineBreak voidClose : String) (pieces : List Piece) : String :=
  String.join (pieces.map (Piece.fill lineBreak voidClose))

/-- What a format writes for a break: nothing in minified markup, and else the end of a line. -/
def Format.breakText (format : Format) : String :=
  match format.mode with
  | .minified => ""
  | .pretty => format.lineEnd.text

theorem Piece.fillAll_cons (lineBreak voidClose : String) (piece : Piece) (pieces : List Piece) :
    fillAll lineBreak voidClose (piece :: pieces) =
      piece.fill lineBreak voidClose ++ fillAll lineBreak voidClose pieces := by
  rw [fillAll, List.map_cons, String.join_cons]
  rfl

/-- **A format fills in the marks** and leaves the chunks as they are. -/
theorem Format.text_eq (format : Format) (pieces : List Piece) :
    format.text pieces = Piece.fillAll format.breakText format.voidStyle.text pieces := by
  induction pieces with
  | nil => rfl
  | cons piece pieces ih =>
    have hcons : format.text (piece :: pieces) =
        String.join (format.chunks piece) ++ format.text pieces := by
      rw [Format.text, allChunks, List.flatMap_cons, String.join_append]
      rfl
    rw [hcons, ih, Piece.fillAll_cons]
    congr 1
    cases piece with
    | chunk text => rw [chunks, String.join_cons, String.join_nil, String.append_empty]; rfl
    | voidClose => rw [chunks, String.join_cons, String.join_nil, String.append_empty]; rfl
    | lineBreak =>
      rw [chunks, Piece.fill, breakText]
      cases format.mode with
      | minified => rfl
      | pretty => simp only [String.join_cons, String.join_nil, String.append_empty]

theorem Piece.fillAll_filter (lineBreak voidClose : String) (pieces : List Piece) :
    fillAll lineBreak voidClose (pieces.filter (· ≠ .lineBreak)) = fillAll "" voidClose pieces := by
  induction pieces with
  | nil => rfl
  | cons piece pieces ih =>
    rw [List.filter_cons, fillAll_cons, ← ih]
    cases piece with
    | chunk text => exact fillAll_cons _ _ _ _
    | voidClose => exact fillAll_cons _ _ _ _
    | lineBreak => exact String.empty_append.symm

/-! ### Ends of lines -/

def Text.crlf (text : String) : String :=
  String.ofList (text.toList.flatMap fun c => if c = '\n' then ['\r', '\n'] else [c])

theorem Text.crlf_append (a b : String) : crlf (a ++ b) = crlf a ++ crlf b := by
  rw [crlf, String.toList_append, List.flatMap_append, String.ofList_append]
  rfl

theorem Text.crlf_of_notMem {text : String} (h : '\n' ∉ text.toList) : crlf text = text := by
  have hkeep : ∀ cs : List Char, '\n' ∉ cs →
      (cs.flatMap fun c => if c = '\n' then ['\r', '\n'] else [c]) = cs := by
    intro cs
    induction cs with
    | nil => exact fun _ => rfl
    | cons c cs ih =>
      intro hc
      rw [List.mem_cons, not_or] at hc
      rw [List.flatMap_cons, if_neg (Ne.symm hc.1), ih hc.2]
      rfl
  rw [crlf, hkeep _ h, String.ofList_toList]

/-- If no chunk has a line feed, changing the ends of lines changes the breaks alone. -/
theorem Piece.crlf_fillAll {voidClose : String} (hvoid : '\n' ∉ voidClose.toList)
    {pieces : List Piece} (h : ∀ text, .chunk text ∈ pieces → '\n' ∉ text.toList)
    (lineBreak : String) :
    Text.crlf (fillAll lineBreak voidClose pieces) =
      fillAll (Text.crlf lineBreak) voidClose pieces := by
  induction pieces with
  | nil => rfl
  | cons piece pieces ih =>
    have hrest := ih fun text hmem => h text (List.mem_cons_of_mem piece hmem)
    rw [fillAll_cons, fillAll_cons, Text.crlf_append, hrest]
    congr 1
    cases piece with
    | chunk text => exact Text.crlf_of_notMem (h text List.mem_cons_self)
    | voidClose => exact Text.crlf_of_notMem hvoid
    | lineBreak => rfl

/-! ### What chunks are made of -/

def Event.value? : Event → Option String
  | firstValue value | nextValue value | .text value | .raw value => some value
  | _ => none

def Event.name? : Event → Option String
  | startTag name _ | attributeName name | endTag name _ => some name
  | _ => none

/-- The event has no line feed in its name or its text. -/
def Event.OneLine (e : Event) : Prop :=
  (∀ value ∈ e.value?, '\n' ∉ value.toList) ∧ ∀ name ∈ e.name?, '\n' ∉ name.toList

namespace Layout

theorem notMem_of_join {chunks : List String} {written : List Char}
    (hjoin : (String.join chunks).toList = written) (h : '\n' ∉ written) :
    ∀ chunk ∈ chunks, '\n' ∉ chunk.toList := by
  intro chunk hchunk hc
  refine h ?_
  rw [← hjoin, String.toList_join]
  exact List.mem_flatMap.2 ⟨chunk, hchunk, hc⟩

theorem chunk_notMem_breakIf (text : String) (condition : Bool) :
    .chunk text ∉ breakIf condition := by
  cases condition <;> simp [breakIf]

theorem chunk_map {texts : List String} (h : ∀ chunk ∈ texts, '\n' ∉ chunk.toList) {text : String}
    (ht : .chunk text ∈ texts.map Piece.chunk) : '\n' ∉ text.toList := by
  obtain ⟨chunk, hchunk, heq⟩ := List.mem_map.1 ht
  cases heq
  exact h _ hchunk

theorem chunk_breakIf_append {condition : Bool} {pieces : List Piece} {text : String}
    (ht : .chunk text ∈ breakIf condition ++ pieces) : .chunk text ∈ pieces :=
  (List.mem_append.1 ht).resolve_left (chunk_notMem_breakIf text condition)

theorem chunk_valuePieces {value text : String} (h : '\n' ∉ value.toList)
    (ht : .chunk text ∈ valuePieces value) : '\n' ∉ text.toList :=
  chunk_map (notMem_of_join (Markup.join_valueChunks value)
    (Markup.lineFeed_notMem_written h).2) ht

theorem chunk_textPieces {s : Layout} {value text : String} (h : '\n' ∉ value.toList)
    (ht : .chunk text ∈ s.textPieces value) : '\n' ∉ text.toList := by
  rw [textPieces] at ht
  by_cases hraw : s.inRawText
  · rw [if_pos hraw] at ht
    exact chunk_map (List.forall_mem_singleton.2 h) ht
  · rw [if_neg hraw] at ht
    exact chunk_map (notMem_of_join (Markup.join_textChunks value)
      (Markup.lineFeed_notMem_written h).1) ht

/-- **The chunks of an event** have no line feed if its name and its text have none. -/
theorem step_chunks {s : Layout} {e : Event} (h : e.OneLine) {text : String}
    (ht : .chunk text ∈ (s.step e).1) : '\n' ∉ text.toList := by
  obtain ⟨hvalue, hname⟩ := h
  cases e with
  | documentStart => cases ht
  | doctype =>
    have hchunks : ∀ chunk ∈ ["<!DOCTYPE html>"], '\n' ∉ chunk.toList := by decide
    exact chunk_map hchunks (chunk_breakIf_append ht)
  | startTag name kind =>
    have hchunks : ∀ chunk ∈ ["<", name], '\n' ∉ chunk.toList :=
      List.forall_mem_cons.2 ⟨by decide, List.forall_mem_singleton.2 (hname _ rfl)⟩
    exact chunk_map hchunks (chunk_breakIf_append ht)
  | attributeName name =>
    have hchunks : ∀ chunk ∈ [" ", name], '\n' ∉ chunk.toList :=
      List.forall_mem_cons.2 ⟨by decide, List.forall_mem_singleton.2 (hname _ rfl)⟩
    exact chunk_map hchunks ht
  | firstValue value =>
    rcases List.mem_cons.1 ht with ht | ht
    · cases ht
      decide
    · exact chunk_valuePieces (hvalue _ rfl) ht
  | nextValue value =>
    rcases List.mem_cons.1 ht with ht | ht
    · cases ht
      decide
    · exact chunk_valuePieces (hvalue _ rfl) ht
  | valueEnd =>
    have hchunks : ∀ chunk ∈ ["\""], '\n' ∉ chunk.toList := by decide
    exact chunk_map hchunks ht
  | startTagEnd hasChildren =>
    have hchunks : ∀ chunk ∈ [">"], '\n' ∉ chunk.toList := by decide
    exact chunk_map hchunks ht
  | voidEnd => simp [step] at ht
  | text value =>
    rw [step] at ht
    by_cases hempty : value.isEmpty
    · rw [if_pos hempty] at ht
      cases ht
    · rw [if_neg hempty] at ht
      rcases List.mem_append.1 ht with ht | ht
      · exact chunk_textPieces (hvalue _ rfl) (chunk_breakIf_append ht)
      · exact absurd ht (chunk_notMem_breakIf _ _)
  | raw value =>
    rw [step] at ht
    by_cases hempty : value.isEmpty
    · rw [if_pos hempty] at ht
      cases ht
    · rw [if_neg hempty] at ht
      exact chunk_map (List.forall_mem_singleton.2 (hvalue _ rfl)) ht
  | endTag name kind =>
    have hchunks : ∀ chunk ∈ ["</", name, ">"], '\n' ∉ chunk.toList :=
      List.forall_mem_cons.2 ⟨by decide,
        List.forall_mem_cons.2 ⟨hname _ rfl, List.forall_mem_singleton.2 (by decide)⟩⟩
    rw [step] at ht
    split at ht
    · exact chunk_map hchunks (chunk_breakIf_append ht)
    · exact chunk_map hchunks ht
  | documentEnd => exact absurd ht (chunk_notMem_breakIf _ _)

/-- **The chunks of a whole run** have no line feed if the events have none. -/
theorem run_chunks {s : Layout} {es : List Event} (h : ∀ e ∈ es, e.OneLine) {text : String}
    (ht : .chunk text ∈ (s.run es).1) : '\n' ∉ text.toList := by
  induction es generalizing s with
  | nil => cases ht
  | cons e es ih =>
    rcases List.mem_append.1 ht with ht | ht
    · exact step_chunks (h e List.mem_cons_self) ht
    · exact ih (fun e he => h e (List.mem_cons_of_mem _ he)) ht

end Layout

/-! ### Literals of a document -/

def Instruction.literal? : Instruction → Option Literal
  | firstValue l | nextValue l | text l | raw l => some l
  | _ => none

namespace Document

variable {d : Document}

/-- No literal of the document has a line feed. -/
def OneLine (d : Document) : Prop :=
  ∀ p ∈ d.instructions, ∀ l ∈ p.2.literal?, ∀ text, d.literal l = .ok text → '\n' ∉ text.toList

theorem event_oneLine (hnames : d.names.Sound) {i : Instruction} {e : Event}
    (h : d.event i = .ok e)
    (hl : ∀ l ∈ i.literal?, ∀ text, d.literal l = .ok text → '\n' ∉ text.toList) : e.OneLine := by
  have helement : ∀ {name : ElementName} {text : String}, d.names.elementText name = .ok text →
      '\n' ∉ text.toList := fun ht =>
    notMem_of_isLegalName (hnames.legal_element (Names.elementText_eq_ok_iff.1 ht))
  cases i with
  | doctype | valueEnd | startTagEnd | voidEnd =>
    cases h
    exact ⟨by rintro _ ⟨⟩, by rintro _ ⟨⟩⟩
  | startTag name span =>
    obtain ⟨text, ht, rfl⟩ := of_map_eq_ok h
    refine ⟨by rintro _ ⟨⟩, ?_⟩
    rintro _ ⟨⟩
    exact helement ht
  | endTag name =>
    obtain ⟨text, ht, rfl⟩ := of_map_eq_ok h
    refine ⟨by rintro _ ⟨⟩, ?_⟩
    rintro _ ⟨⟩
    exact helement ht
  | attributeName name =>
    obtain ⟨text, ht, rfl⟩ := of_map_eq_ok h
    refine ⟨by rintro _ ⟨⟩, ?_⟩
    rintro _ ⟨⟩
    exact notMem_of_isLegalName (hnames.legal_attribute (Names.attributeText_eq_ok_iff.1 ht))
  | firstValue l | nextValue l | text l | raw l =>
    obtain ⟨text, ht, rfl⟩ := of_map_eq_ok h
    refine ⟨?_, by rintro _ ⟨⟩⟩
    rintro _ ⟨⟩
    exact hl l rfl text ht

theorem playFrom_oneLine (hnames : d.names.Sound) {is : List (Nat × Instruction)}
    (hl : ∀ p ∈ is, ∀ l ∈ p.2.literal?, ∀ text, d.literal l = .ok text → '\n' ∉ text.toList)
    {opened opened' : List ElementName} {es : List Event}
    (h : d.playFrom opened is = .ok (es, opened')) : ∀ e ∈ es, e.OneLine := by
  induction is generalizing opened es with
  | nil =>
    cases h
    intro e he
    cases he
  | cons p is ih =>
    rw [playFrom] at h
    obtain ⟨inner, _, h⟩ := of_bind_eq_ok h
    obtain ⟨e, hevent, h⟩ := of_bind_eq_ok h
    obtain ⟨⟨es', _⟩, hrest, h⟩ := of_bind_eq_ok h
    cases h
    intro e' he'
    rcases List.mem_cons.1 he' with rfl | he'
    · exact event_oneLine hnames hevent (hl p List.mem_cons_self)
    · exact ih (fun p hp => hl p (List.mem_cons_of_mem _ hp)) hrest e' he'

/-- **The events of a document without line feeds in its literals have none at all.** -/
theorem events_oneLine (hnames : d.names.Sound) (hl : d.OneLine) {es : List Event}
    (h : d.events = .ok es) : ∀ e ∈ es, e.OneLine := by
  obtain ⟨body, hbody, rfl⟩ := of_map_eq_ok h
  obtain ⟨⟨played, _⟩, hplay, hbody⟩ := of_bind_eq_ok hbody
  have hbody : body = played := by
    simp only at hbody
    split at hbody
    · cases hbody
    · split at hbody
      · cases hbody
      · cases hbody
        rfl
  subst hbody
  intro e he
  rcases List.mem_append.1 he with he | he
  · rcases List.mem_cons.1 he with rfl | he
    · exact ⟨by rintro _ ⟨⟩, by rintro _ ⟨⟩⟩
    · exact playFrom_oneLine hnames hl hplay e he
  · rw [List.mem_singleton.1 he]
    exact ⟨by rintro _ ⟨⟩, by rintro _ ⟨⟩⟩

/-! ### Skeletons -/

/-- The formats of a document differ by what they write at the marks of a skeleton. -/
structure Skeleton (d : Document) (skeleton : List Piece) : Prop where
  /-- Writers stand alike after each part of the events, whatever their formats and sinks are. -/
  alike : ∀ es, d.events = .ok es → ∀ front, front <+: es → ∀ {σ τ : Type} (sink : Sink σ)
    (sink' : Sink τ) (format format' : Format) (s : σ) (s' : τ),
    ((Writer.new format s).events sink front).layout =
      ((Writer.new format' s').events sink' front).layout
  /-- In every format the chunks are written as they are, with the text of the format at each
  mark. -/
  rendered : ∀ format : Format, d.render format =
    .ok (Piece.fillAll format.breakText format.voidStyle.text skeleton)
  /-- A writer to a text writes the same. -/
  written : ∀ format : Format, (d.write format Sink.text "").map Writer.finish =
    .ok (.ok (Piece.fillAll format.breakText format.voidStyle.text skeleton))
  /-- Minified markup is what is left of pretty markup without its breaks. -/
  minified : ∀ (lineEnd lineEnd' : LineEnd) (voidStyle : VoidStyle),
    d.render ⟨.minified, lineEnd', voidStyle⟩ = .ok (Piece.fillAll
      (Format.mk .pretty lineEnd voidStyle).breakText voidStyle.text
      (skeleton.filter (· ≠ .lineBreak)))
  /-- If no literal has a line feed, another end of lines replaces the line feeds, and nothing
  else. -/
  crlf : d.OneLine → ∀ (mode : Mode) (voidStyle : VoidStyle), ∃ text,
    d.render ⟨mode, .lf, voidStyle⟩ = .ok text ∧
    d.render ⟨mode, .crlf, voidStyle⟩ = .ok (Text.crlf text)

theorem skeleton_of_events (hnames : d.names.Sound) {es : List Event} (h : d.events = .ok es) :
    d.Skeleton (pieces es) := by
  have hrendered : ∀ format : Format, d.render format =
      .ok (Piece.fillAll format.breakText format.voidStyle.text (pieces es)) := by
    intro format
    rw [← Format.text_eq, render_eq, h]
    rfl
  refine ⟨?_, hrendered, ?_, ?_, ?_⟩
  · intro _ _ front _ σ τ sink sink' format format' s s'
    exact Writer.layout_events_eq (w := Writer.new format s) (v := Writer.new format' s') rfl front
  · intro format
    rw [(writes_of_events h format).text.2, ← Format.text_eq]
    rfl
  · intro lineEnd lineEnd' voidStyle
    rw [hrendered, Piece.fillAll_filter]
    rfl
  · intro hl mode voidStyle
    refine ⟨_, hrendered _, ?_⟩
    have hchunks : ∀ text, .chunk text ∈ pieces es → '\n' ∉ text.toList :=
      fun text => Layout.run_chunks (events_oneLine hnames hl h)
    have hvoid : '\n' ∉ voidStyle.text.toList := by
      cases voidStyle <;> decide
    have hbreak : Text.crlf (Format.mk mode .lf voidStyle).breakText =
        (Format.mk mode .crlf voidStyle).breakText := by
      cases mode
      · rfl
      · have hlf : Text.crlf "\n" = "\r\n" := by decide
        exact hlf
    rw [hrendered, Piece.crlf_fillAll hvoid hchunks, hbreak]

end Document

/-- **All formats of a document share one skeleton.**  Every recording can be compiled, and there is
one row of pieces that every format of the document fills in. -/
theorem Recording.skeleton_of_madeBy {t : Recording} {calls : List SpelledCall}
    (h : t.MadeBy calls) : ∃ d skeleton, t.compile = .ok d ∧ d.Skeleton skeleton := by
  obtain ⟨draft, d, hcalls, hcompile, hnames, hevents⟩ := h.played
  have hsound : d.names.Sound := by
    rw [hnames]
    exact Draft.names_sound hcalls
  exact ⟨d, _, hcompile, Document.skeleton_of_events hsound hevents⟩

theorem Recording.card_skeleton : card.MadeBy cardCalls ∧
    ∃ d skeleton, card.compile = .ok d ∧ d.Skeleton skeleton :=
  ⟨card_madeBy, skeleton_of_madeBy card_madeBy⟩

end HtmlTape
