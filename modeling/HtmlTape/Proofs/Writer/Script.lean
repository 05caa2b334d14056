import HtmlTape.Proofs.Event.Nested
import HtmlTape.Proofs.Writer.Lexed

/-!
# Texts of scripts and style sheets

What pretty markup has between the start tag and the end tag of a script whose children are texts.
The first text that is not empty meets the layout right after the start tag, so that a line may be
broken before it and after it.  It leaves the layout in the midst of inline content, and there the
later texts follow one another, and the end tag follows them, without a break
(`Layout.run_scriptTexts`).

So the break after the first text stands between the texts if there are more of them
(`Recording.scripts_of_madeBy`): the texts of a script are kept together if no more than one of them
has anything in it, or if the first one that has ends its line itself.
-/

namespace HtmlTape

/-- A script or style sheet whose children are texts, as it is read aloud. -/
structure TextScript where
  tag : String
  kind : ElementKind
  attributes : List Event
  hasChildren : Bool
  texts : List String
  isRawText : kind.isRawText = true
  isAttribute : ∀ e ∈ attributes, e.isAttribute = true

namespace TextScript

def opening (x : TextScript) : List Event :=
  .startTag x.tag x.kind :: x.attributes

def events (x : TextScript) : List Event :=
  x.opening ++ .startTagEnd x.hasChildren :: x.texts.map .text ++ [.endTag x.tag x.kind]

/-- What pretty markup has between the two tags.  Breaks enclose the first text with anything in
it, where it has no end of a line itself, and the later texts follow. -/
def content (lineBreak : String) : List String → String
  | [] => ""
  | text :: texts =>
    if text.isEmpty then content lineBreak texts
    else
      (if Layout.startsLine text then "" else lineBreak) ++ text ++
        (if Layout.endsLine text then "" else lineBreak) ++ String.join texts

/-- No break comes between texts: at most one of them has anything in it, or the first that has
ends its line itself. -/
def KeepsTogether (texts : List String) : Prop :=
  ∀ text rest, texts.filter (!·.isEmpty) = text :: rest → rest = [] ∨ Layout.endsLine text = true

theorem join_of_filter_eq_nil {texts : List String} (h : texts.filter (!·.isEmpty) = []) :
    String.join texts = "" := by
  induction texts with
  | nil => rfl
  | cons text texts ih =>
    rw [List.filter_cons] at h
    split at h
    · cases h
    · rename_i hempty
      obtain rfl : text = "" := String.isEmpty_iff.1 (by simpa using hempty)
      rw [String.join_cons, ih h, String.empty_append]

/-- **Texts that are kept together** stand between at most two breaks. -/
theorem KeepsTogether.content_eq {texts : List String} (h : KeepsTogether texts)
    (lineBreak : String) :
    ∃ lead trail : String, (lead = "" ∨ lead = lineBreak) ∧ (trail = "" ∨ trail = lineBreak) ∧
      content lineBreak texts = lead ++ String.join texts ++ trail := by
  induction texts with
  | nil => exact ⟨"", "", .inl rfl, .inl rfl, rfl⟩
  | cons text texts ih =>
    rw [content, String.join_cons]
    by_cases hempty : text.isEmpty
    · have hfilter : (text :: texts).filter (!·.isEmpty) = texts.filter (!·.isEmpty) :=
        List.filter_cons_of_neg (by simpa using hempty)
      obtain ⟨lead, trail, hlead, htrail, heq⟩ :=
        ih fun u rest hu => h u rest (hfilter.trans hu)
      obtain rfl : text = "" := String.isEmpty_iff.1 hempty
      rw [if_pos hempty, heq, String.empty_append]
      exact ⟨lead, trail, hlead, htrail, rfl⟩
    · have hfilter : (text :: texts).filter (!·.isEmpty) = text :: texts.filter (!·.isEmpty) :=
        List.filter_cons_of_pos (by simpa using hempty)
      rw [if_neg hempty]
      have hlead : ∀ b : Bool, (if b then "" else lineBreak) = "" ∨
          (if b then "" else lineBreak) = lineBreak := by
        intro b
        cases b with
        | true => exact .inl rfl
        | false => exact .inr rfl
      rcases h text _ hfilter with hrest | hends
      · rw [join_of_filter_eq_nil hrest, String.append_empty, String.append_empty]
        exact ⟨_, _, hlead _, hlead _, rfl⟩
      · rw [if_pos hends, String.append_empty]
        exact ⟨_, "", hlead _, .inl rfl, by rw [String.append_empty, String.append_assoc]⟩

end TextScript

/-! ### The layout within a script -/

namespace Layout

variable (lineBreak voidClose : String)

theorem run_cons_fst (s : Layout) (e : Event) (es : List Event) :
    (s.run (e :: es)).1 = (s.step e).1 ++ ((s.step e).2.run es).1 :=
  rfl

theorem run_cons_snd (s : Layout) (e : Event) (es : List Event) :
    (s.run (e :: es)).2 = ((s.step e).2.run es).2 :=
  rfl

/-- The layout stands within a script, the rest of the open elements being `outer`. -/
def within (place : Place) (children : Nat) (outer : List OpenElement) : Layout :=
  ⟨place, ⟨.script, .script, children, true⟩ :: outer⟩

theorem step_of_isAttribute (s : Layout) {e : Event} (h : e.isAttribute) : (s.step e).2 = s := by
  cases e with
  | attributeName | firstValue | nextValue | valueEnd => rfl
  | _ => cases h

theorem run_attributes (s : Layout) {es : List Event} (h : ∀ e ∈ es, e.isAttribute = true) :
    (s.run es).2 = s := by
  induction es with
  | nil => rfl
  | cons e es ih =>
    obtain ⟨he, hes⟩ := List.forall_mem_cons.1 h
    rw [run_cons_snd, step_of_isAttribute s he]
    exact ih hes

/-- The start tag of a script leads into it, wherever it stands. -/
theorem exists_within (s : Layout) (x : TextScript) :
    ∃ outer, ((s.run x.opening).2.step (.startTagEnd x.hasChildren)).2 =
      within .script 0 outer := by
  have hkind : OpenElement.ofKind x.kind = ⟨.script, .script, 0, true⟩ := if_pos x.isRawText
  refine ⟨s.countChild.opened, ?_⟩
  rw [TextScript.opening, run_cons_snd, run_attributes _ x.isAttribute, step, step, hkind]
  rfl

theorem fillAll_chunk (text : String) : Piece.fillAll lineBreak voidClose [.chunk text] = text :=
  (Piece.fillAll_cons ..).trans String.append_empty

theorem fillAll_breakIf_not (b : Bool) :
    Piece.fillAll lineBreak voidClose (breakIf !b) = if b then "" else lineBreak := by
  cases b with
  | true => rfl
  | false => exact (Piece.fillAll_cons ..).trans String.append_empty

theorem step_text_within (text : String) (children : Nat) (outer : List OpenElement) :
    Piece.fillAll lineBreak voidClose ((within .phrase children outer).step (.text text)).1 =
        text ∧
      ∃ children', ((within .phrase children outer).step (.text text)).2 =
        within .phrase children' outer := by
  by_cases hempty : text.isEmpty
  · obtain rfl : text = "" := String.isEmpty_iff.1 hempty
    exact ⟨rfl, children, rfl⟩
  · rw [step, if_neg hempty]
    exact ⟨fillAll_chunk lineBreak voidClose text, children + 1, rfl⟩

theorem run_texts_within (texts : List String) : ∀ (children : Nat) (outer : List OpenElement),
    Piece.fillAll lineBreak voidClose
        ((within .phrase children outer).run (texts.map .text)).1 = String.join texts ∧
      ∃ children', ((within .phrase children outer).run (texts.map .text)).2 =
        within .phrase children' outer := by
  induction texts with
  | nil => exact fun children _ => ⟨rfl, children, rfl⟩
  | cons text texts ih =>
    intro children outer
    obtain ⟨hpieces, children', hstate⟩ :=
      step_text_within lineBreak voidClose text children outer
    rw [List.map_cons, run_cons_fst, run_cons_snd, hstate, String.join_cons,
      Piece.fillAll_append, hpieces, (ih children' outer).1]
    exact ⟨rfl, (ih children' outer).2⟩

/-- **The texts of a script, right after its start tag.**  Afterwards nothing was written, or the
layout is within inline content. -/
theorem run_scriptTexts (texts : List String) (outer : List OpenElement) :
    Piece.fillAll lineBreak voidClose ((within .script 0 outer).run (texts.map .text)).1 =
        TextScript.content lineBreak texts ∧
      (((within .script 0 outer).run (texts.map .text)).2 = within .script 0 outer ∨
        ∃ children, ((within .script 0 outer).run (texts.map .text)).2 =
          within .phrase children outer) := by
  induction texts with
  | nil => exact ⟨rfl, .inl rfl⟩
  | cons text texts ih =>
    rw [List.map_cons, run_cons_fst, run_cons_snd, step, TextScript.content]
    by_cases hempty : text.isEmpty
    · rw [if_pos hempty, if_pos hempty]
      exact ih
    · rw [if_neg hempty, if_neg hempty]
      obtain ⟨hrest, hstate⟩ := run_texts_within lineBreak voidClose texts 1 outer
      refine ⟨?_, .inr hstate⟩
      -- at the place after a start tag, both breaks depend on the text alone
      show Piece.fillAll _ _ (breakIf (!startsLine text) ++ [.chunk text] ++
        breakIf (!endsLine text) ++ ((within .phrase 1 outer).run _).1) = _
      rw [Piece.fillAll_append, Piece.fillAll_append, Piece.fillAll_append, fillAll_chunk,
        fillAll_breakIf_not, fillAll_breakIf_not, hrest]

/-- No break stands before the end tag of a script that is empty or ends in inline content. -/
theorem step_endTag_within {place : Place} {children : Nat}
    (h : place = .phrase ∨ children = 0) (outer : List OpenElement) (tag : String)
    (kind : ElementKind) :
    ((within place children outer).step (.endTag tag kind)).1 =
      [.chunk "</", .chunk tag, .chunk ">"] := by
  rcases h with rfl | rfl
  · cases children <;> rfl
  · rfl

/-- **A script whose children are texts, wherever it stands.**  What is written for its children
lies between the two tags. -/
theorem fillAll_run_script (s : Layout) (x : TextScript) :
    Piece.fillAll lineBreak voidClose (s.run x.events).1 =
      Piece.fillAll lineBreak voidClose (s.run x.opening).1 ++ ">" ++
        TextScript.content lineBreak x.texts ++ "</" ++ x.tag ++ ">" := by
  obtain ⟨outer, hinside⟩ := exists_within s x
  obtain ⟨hcontent, hstate⟩ := run_scriptTexts lineBreak voidClose x.texts outer
  have hend : (((within .script 0 outer).run (x.texts.map .text)).2.step
      (.endTag x.tag x.kind)).1 = [.chunk "</", .chunk x.tag, .chunk ">"] := by
    rcases hstate with h | ⟨children, h⟩
    · rw [h]
      exact step_endTag_within (.inr rfl) outer _ _
    · rw [h]
      exact step_endTag_within (.inl rfl) outer _ _
  have hclose : Piece.fillAll lineBreak voidClose [.chunk "</", .chunk x.tag, .chunk ">"] =
      "</" ++ (x.tag ++ ">") := by
    rw [Piece.fillAll_cons, Piece.fillAll_cons, fillAll_chunk]
    rfl
  have hopen : ∀ b, ((s.run x.opening).2.step (.startTagEnd b)).1 = [.chunk ">"] := fun _ => rfl
  rw [TextScript.events, List.append_assoc, run_append, Piece.fillAll_append, List.cons_append,
    run_cons_fst, Piece.fillAll_append, hopen, fillAll_chunk, hinside, run_append,
    Piece.fillAll_append, hcontent, run_cons_fst, hend, Piece.fillAll_append, hclose]
  simp only [run, Piece.fillAll, List.map_nil, String.join_nil, String.append_empty,
    String.append_assoc]

end Layout

/-! ### Scripts of documents -/

/-- Where a script or style sheet of a document has texts alone, the document's pretty markup goes up
to the end of the start tag, has the content of the script next and then the end tag. -/
structure Document.WritesScript (d : Document) (before : List Event) (x : TextScript)
    (lineEnd : LineEnd) (voidStyle : VoidStyle) : Prop where
  content : ∃ rest : String, d.render ⟨.pretty, lineEnd, voidStyle⟩ =
    .ok (Format.text ⟨.pretty, lineEnd, voidStyle⟩ (pieces (before ++ x.opening)) ++ ">" ++
      TextScript.content lineEnd.text x.texts ++ "</" ++ x.tag ++ ">" ++ rest)
  together : TextScript.KeepsTogether x.texts → ∃ lead trail : String,
    (lead = "" ∨ lead = lineEnd.text) ∧ (trail = "" ∨ trail = lineEnd.text) ∧
    TextScript.content lineEnd.text x.texts = lead ++ String.join x.texts ++ trail

/-- **The texts of a script in pretty markup.**  The document of a recording can be played, and
where one of its scripts or style sheets has texts alone, its pretty markup goes up to the end of
the start tag, has the content of the script next and then the end tag.  The content is made of the
texts one after another, with a break after the first one that has anything in it; so it is all of
the texts between at most two breaks if they are kept together. -/
theorem Recording.scripts_of_madeBy {t : Recording} {calls : List SpelledCall}
    (h : t.MadeBy calls) :
    ∃ (d : Document) (es : List Event), t.compile = .ok d ∧ d.events = .ok es ∧
      ∀ (before after : List Event) (x : TextScript), es = before ++ x.events ++ after →
        ∀ (lineEnd : LineEnd) (voidStyle : VoidStyle), d.WritesScript before x lineEnd voidStyle := by
  obtain ⟨draft, d, -, hcompile, -, hevents⟩ := h.played
  refine ⟨d, _, hcompile, hevents, ?_⟩
  intro before after x hes lineEnd voidStyle
  refine ⟨⟨Piece.fillAll lineEnd.text voidStyle.text
    ((Layout.start.run (before ++ x.events)).2.run after).1, ?_⟩, fun hx => hx.content_eq _⟩
  have htext : ∀ ps, Format.text ⟨.pretty, lineEnd, voidStyle⟩ ps =
      Piece.fillAll lineEnd.text voidStyle.text ps := Format.text_eq _
  rw [Document.render_eq, hevents, hes]
  show Except.ok (Format.text _ (Layout.start.run _).1) = _
  rw [htext, htext, pieces, Layout.run_append, Piece.fillAll_append, Layout.run_append,
    Piece.fillAll_append, Layout.fillAll_run_script, Layout.run_append, Piece.fillAll_append]
  simp only [String.append_assoc]

/-! ### A script in two texts -/

/-- A script of one line, recorded as two texts that touch within a regular expression. -/
def Recording.snippetCalls : List SpelledCall :=
  [.openElement (.spelled "script"), .text "x = /a", .text "b/;", .closeElement]

def Recording.snippet : Recording where
  words := #[245, 13, 82, 240, 0, 6, 240, 6, 3, 3, 6, 2, 246, 248, 1, 0]
  pool := "x = /ab/;"
  names := Names.standard
  root := 13
  counters := ⟨1, 0, 2, 0, 3, 1⟩

theorem Recording.snippet_scripts : snippet.MadeBy snippetCalls ∧
    ∃ (d : Document) (es : List Event), snippet.compile = .ok d ∧ d.events = .ok es ∧
      ∀ (before after : List Event) (x : TextScript), es = before ++ x.events ++ after →
        ∀ (lineEnd : LineEnd) (voidStyle : VoidStyle), d.WritesScript before x lineEnd voidStyle := by
  have hsnippet : snippet.MadeBy snippetCalls := by decide +kernel
  exact ⟨hsnippet, scripts_of_madeBy hsnippet⟩

def TextScript.snippet : TextScript where
  tag := "script"
  kind := .rawText
  attributes := []
  hasChildren := true
  texts := ["x = /a", "b/;"]
  isRawText := rfl
  isAttribute := by intro e he; cases he

/-- **A script in two texts is broken within its line.**  Its texts do not stand between two tags
with breaks around them alone. -/
theorem Recording.snippet_broken : snippet.MadeBy snippetCalls ∧
    ∃ d : Document, snippet.compile = .ok d ∧
      d.events = .ok ([.documentStart] ++ TextScript.snippet.events ++ [.documentEnd]) ∧
      d.render .pretty = .ok "<script>\nx = /a\nb/;</script>\n" ∧
      ∀ lead trail : String, (lead = "" ∨ lead = "\n") → (trail = "" ∨ trail = "\n") →
        d.render .pretty ≠ .ok ("<script>" ++ (lead ++ String.join TextScript.snippet.texts ++
          trail) ++ "</script>\n") := by
  have hsnippet : snippet.MadeBy snippetCalls := by decide +kernel
  obtain ⟨draft, d, hdraft, hcompile, -, hevents⟩ := hsnippet.played
  have htrees : (Draft.new.requestEach snippetCalls).map (fun draft : Draft String =>
      .documentStart :: Tree.eventsAll draft.names draft.trees ++ [.documentEnd]) =
      some ([.documentStart] ++ TextScript.snippet.events ++ [.documentEnd]) := by
    decide +kernel
  rw [hdraft] at htrees
  replace hevents := hevents.trans (congrArg Except.ok (Option.some.inj htrees))
  have hpretty : d.render .pretty = .ok "<script>\nx = /a\nb/;</script>\n" := by
    rw [Document.render_eq, hevents]
    show Except.ok (Format.text _ _) = _
    decide +kernel
  refine ⟨hsnippet, d, hcompile, hevents, hpretty, ?_⟩
  intro lead trail hlead htrail h
  have hne : ∀ lead ∈ ["", "\n"], ∀ trail ∈ ["", "\n"], "<script>\nx = /a\nb/;</script>\n" ≠
      "<script>" ++ (lead ++ String.join TextScript.snippet.texts ++ trail) ++ "</script>\n" := by
    decide +kernel
  exact hne lead (by simpa using hlead) trail (by simpa using htrail)
    (Except.ok.inj (hpretty.symm.trans h))

end HtmlTape
