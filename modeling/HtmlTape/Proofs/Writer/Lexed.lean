import HtmlTape.Proofs.Markup.Lexeme
import HtmlTape.Proofs.Writer.Skeleton

/-!
# Minified markup is read back

Minified markup has no breaks, so what is written for an event depends on the event alone, as long
as no script or style sheet is open (`Layout.run_minified`).  The characters written for trees are
then those of the lexemes of the trees, with their texts escaped (`Tree.minified_eventsAll`), and
these lexemes can be read back, because names are legal and no value is written with a quote
(`Tree.SoundAll.lexemes_legal`).

So a reader finds the tags, the attributes and the texts of the document in its minified markup, and
the tags do not depend on the texts and the values (`Recording.lexemes_of_madeBy`).
-/

namespace HtmlTape

open Markup (Lexeme lexemes? printAttribute)

variable {τ σ : Type}

/-! ### What is written for an event -/

def Event.minified : Event → String
  | .documentStart | .documentEnd => ""
  | .doctype => "<!DOCTYPE html>"
  | .startTag name _ => "<" ++ name
  | .attributeName name => " " ++ name
  | .firstValue value => "=\"" ++ (Markup.escapeValue value).text
  | .nextValue value => " " ++ (Markup.escapeValue value).text
  | .valueEnd => "\""
  | .startTagEnd _ | .voidEnd => ">"
  | .text value => (Markup.escapeText value).text
  | .raw value => value
  | .endTag name _ => "</" ++ name ++ ">"

/-- The event opens no script and no style sheet. -/
def Event.Escaped : Event → Prop
  | .startTag _ kind => kind.isRawText = false
  | _ => True

namespace Piece

theorem fillAll_append (lineBreak voidClose : String) (as bs : List Piece) :
    fillAll lineBreak voidClose (as ++ bs) =
      fillAll lineBreak voidClose as ++ fillAll lineBreak voidClose bs := by
  rw [fillAll, List.map_append, String.join_append]
  rfl

theorem fillAll_chunks (lineBreak voidClose : String) (chunks : List String) :
    fillAll lineBreak voidClose (chunks.map .chunk) = String.join chunks := by
  rw [fillAll, List.map_map]
  exact congrArg String.join (List.map_id chunks)

theorem fillAll_breakIf (voidClose : String) (condition : Bool) :
    fillAll "" voidClose (Layout.breakIf condition) = "" := by
  cases condition <;> rfl

end Piece

namespace Layout

/-- No script and no style sheet is open. -/
def Escapes (s : Layout) : Prop := ∀ o ∈ s.opened, o.isRawText = false

theorem escapes_start : start.Escapes := by
  intro o h
  cases h

theorem Escapes.inRawText {s : Layout} (h : s.Escapes) : s.inRawText = false := by
  rw [Layout.inRawText]
  split
  · rename_i innermost outer heq
    exact h innermost (heq ▸ List.mem_cons_self)
  · rfl

theorem Escapes.countChild {s : Layout} (h : s.Escapes) : s.countChild.Escapes := by
  intro o ho
  rw [Layout.countChild] at ho
  split at ho
  · rename_i innermost outer heq
    rcases List.mem_cons.1 ho with rfl | ho
    · exact h innermost (heq ▸ List.mem_cons_self)
    · exact h o (heq ▸ List.mem_cons_of_mem _ ho)
  · exact h o ho

theorem Escapes.leave {s : Layout} (h : s.Escapes) : s.leave.Escapes := by
  intro o ho
  rw [Layout.leave] at ho
  split at ho
  · rename_i innermost outer heq
    exact h o (heq ▸ List.mem_cons_of_mem _ ho)
  · exact h o ho

theorem isRawText_ofKind (kind : ElementKind) :
    (OpenElement.ofKind kind).isRawText = kind.isRawText := by
  rw [OpenElement.ofKind]
  by_cases h : kind.isRawText
  · rw [if_pos h, h]
  · rw [if_neg h]
    by_cases hp : kind.isPhrasing
    · rw [if_pos hp]
      exact (Bool.not_eq_true _ ▸ h).symm
    · rw [if_neg hp]
      exact (Bool.not_eq_true _ ▸ h).symm

theorem Escapes.step {s : Layout} (h : s.Escapes) {e : Event} (he : e.Escaped) :
    (s.step e).2.Escapes := by
  cases e with
  | startTag name kind =>
    intro o ho
    rcases List.mem_cons.1 ho with rfl | ho
    · exact (isRawText_ofKind kind).trans he
    · exact h.countChild o ho
  | doctype => exact h.countChild
  | startTagEnd hasChildren =>
    rw [Layout.step]
    split
    · exact h
    · exact h
  | voidEnd => exact h.leave
  | text value =>
    rw [Layout.step]
    split
    · exact h
    · exact h.countChild
  | raw value =>
    rw [Layout.step]
    split
    · exact h
    · exact h.countChild
  | endTag name kind =>
    rw [Layout.step]
    split
    · exact h.leave
    · exact h
  | _ => exact h

theorem fillAll_valuePieces (lineBreak voidClose value : String) :
    Piece.fillAll lineBreak voidClose (valuePieces value) = (Markup.escapeValue value).text := by
  apply String.toList_inj.1
  rw [valuePieces, Piece.fillAll_chunks, Markup.join_valueChunks, Markup.toList_escapeValue]

theorem fillAll_textPieces {s : Layout} (h : s.Escapes) (lineBreak voidClose text : String) :
    Piece.fillAll lineBreak voidClose (s.textPieces text) = (Markup.escapeText text).text := by
  apply String.toList_inj.1
  rw [textPieces, if_neg (by rw [h.inRawText]; exact Bool.false_ne_true), Piece.fillAll_chunks,
    Markup.join_textChunks, Markup.toList_escapeText]

/-- **What is written for an event** does not depend on where it stands. -/
theorem step_minified {s : Layout} (h : s.Escapes) (e : Event) :
    Piece.fillAll "" ">" (s.step e).1 = e.minified := by
  have hnil : Piece.fillAll "" ">" [] = "" := rfl
  cases e with
  | documentStart => rfl
  | doctype =>
    rw [step, Piece.fillAll_append, Piece.fillAll_breakIf, Piece.fillAll_cons, hnil,
      String.empty_append, String.append_empty]
    rfl
  | startTag name kind =>
    rw [step, Piece.fillAll_append, Piece.fillAll_breakIf, String.empty_append,
      Piece.fillAll_cons, Piece.fillAll_cons, hnil, String.append_empty]
    rfl
  | attributeName name =>
    rw [step, Piece.fillAll_cons, Piece.fillAll_cons, hnil, String.append_empty]
    rfl
  | firstValue value | nextValue value =>
    rw [step, Piece.fillAll_cons, fillAll_valuePieces]
    rfl
  | valueEnd | startTagEnd hasChildren | voidEnd =>
    rw [step, Piece.fillAll_cons, hnil, String.append_empty]
    rfl
  | text value =>
    rw [step, Event.minified]
    by_cases hempty : value.isEmpty
    · rw [if_pos hempty, String.isEmpty_iff.1 hempty]
      rfl
    · rw [if_neg hempty, Piece.fillAll_append, Piece.fillAll_append, Piece.fillAll_breakIf,
        Piece.fillAll_breakIf, String.empty_append, String.append_empty, fillAll_textPieces h]
  | raw value =>
    rw [step, Event.minified]
    by_cases hempty : value.isEmpty
    · rw [if_pos hempty, String.isEmpty_iff.1 hempty]
      rfl
    · rw [if_neg hempty, Piece.fillAll_cons, hnil, String.append_empty]
      rfl
  | endTag name kind =>
    have hclose : Piece.fillAll "" ">" [.chunk "</", .chunk name, .chunk ">"] =
        "</" ++ name ++ ">" := by
      rw [Piece.fillAll_cons, Piece.fillAll_cons, Piece.fillAll_cons, hnil, String.append_empty,
        ← String.append_assoc]
      rfl
    rw [step, Event.minified]
    split
    · rw [Piece.fillAll_append, Piece.fillAll_breakIf, String.empty_append, hclose]
    · exact hclose
  | documentEnd => rw [step, Piece.fillAll_breakIf]; rfl

/-- **Minified markup**, event by event, as long as no script and no style sheet is opened. -/
theorem run_minified {s : Layout} (h : s.Escapes) {es : List Event} (hes : ∀ e ∈ es, e.Escaped) :
    Piece.fillAll "" ">" (s.run es).1 = String.join (es.map Event.minified) := by
  induction es generalizing s with
  | nil => rfl
  | cons e es ih =>
    have hrest := ih (h.step (hes e List.mem_cons_self))
      fun e hmem => hes e (List.mem_cons_of_mem _ hmem)
    rw [List.map_cons, String.join_cons, ← step_minified h e, ← hrest, ← Piece.fillAll_append]
    rfl

end Layout

/-! ### The lexemes of trees -/

def Group.valueText (values : List String) : String :=
  " ".intercalate (values.map fun value => (Markup.escapeValue value).text)

def Group.written (names : Names) (g : Group String) : String × Option String :=
  (names.attr g.name, if g.values.isEmpty then none else some (Group.valueText g.values))

mutual

/-- The lexemes of a tree: for an element its start tag, the lexemes of its children and its end
tag; a void element has its start tag alone, and an empty text is nothing at all. -/
def Tree.lexemes (names : Names) : Tree String → List Lexeme
  | .doctype | .raw _ => []
  | .text value => if value.isEmpty then [] else [.text value]
  | .element name groups children =>
    .startTag (names.tag name) (groups.map (Group.written names)) ::
      if name.kind.isVoid then []
      else Tree.lexemesAll names children ++ [.endTag (names.tag name)]

def Tree.lexemesAll (names : Names) : List (Tree String) → List Lexeme
  | [] => []
  | tree :: rest => tree.lexemes names ++ Tree.lexemesAll names rest

end

mutual

/-- The tree consists of texts and of elements other than scripts and style sheets. -/
def Tree.isPlain : Tree τ → Bool
  | .doctype | .raw _ => false
  | .text _ => true
  | .element name _ children => !name.kind.isRawText && Tree.allPlain children

def Tree.allPlain : List (Tree τ) → Bool
  | [] => true
  | tree :: rest => tree.isPlain && Tree.allPlain rest

end

/-- **Induction over plain trees.** -/
@[elab_as_elim]
theorem Tree.plain_induction {motive : List (Tree τ) → Prop} (nil : motive [])
    (text : ∀ value rest, motive rest → motive (.text value :: rest))
    (element : ∀ name groups children rest, name.kind.isRawText = false → motive children →
      motive rest → motive (.element name groups children :: rest)) (trees : List (Tree τ)) :
    Tree.allPlain trees → motive trees := by
  induction trees using Tree.forest_induction with
  | nil => exact fun _ => nil
  | doctype rest ih => exact fun h => nomatch h
  | raw value rest ih => exact fun h => nomatch h
  | text value rest ih => exact fun h => text value rest (ih h)
  | element name groups children rest ih₁ ih₂ =>
    intro h
    rw [Tree.allPlain, Tree.isPlain, Bool.and_eq_true, Bool.and_eq_true, Bool.not_eq_true'] at h
    obtain ⟨⟨hraw, hchildren⟩, hrest⟩ := h
    exact element name groups children rest hraw (ih₁ hchildren) (ih₂ hrest)

theorem Group.events_escaped (names : Names) (g : Group String) :
    ∀ e ∈ g.events names, e.Escaped := by
  intro e he
  obtain ⟨name, values⟩ := g
  cases values with
  | nil =>
    rw [List.mem_singleton.1 he]
    trivial
  | cons value values =>
    simp only [events, Event.ofValues, List.mem_cons, List.mem_append, List.mem_map,
      List.not_mem_nil, or_false] at he
    rcases he with rfl | (rfl | ⟨_, _, rfl⟩) | rfl <;> trivial

theorem Tree.events_escaped {names : Names} {trees : List (Tree String)}
    (h : Tree.allPlain trees) : ∀ e ∈ Tree.eventsAll names trees, e.Escaped := by
  refine Tree.plain_induction ?nil ?text ?element trees h
  case nil =>
    intro e he
    cases he
  case text =>
    intro value rest ih e he
    rcases List.mem_cons.1 he with rfl | he
    · trivial
    · exact ih e he
  case element =>
    intro name groups children rest hraw ih₁ ih₂ e he
    rcases List.mem_append.1 he with he | he
    · rw [Tree.events] at he
      rcases List.mem_cons.1 he with rfl | he
      · exact hraw
      rcases List.mem_append.1 he with he | he
      · obtain ⟨g, _, hg⟩ := List.mem_flatMap.1 he
        exact g.events_escaped names e hg
      · by_cases hv : name.kind.isVoid
        · rw [if_pos hv] at he
          rw [List.mem_singleton.1 he]
          trivial
        · rw [if_neg hv] at he
          rcases List.mem_append.1 he with he | he
          · rcases List.mem_cons.1 he with rfl | he
            · trivial
            · exact ih₁ e he
          · rw [List.mem_singleton.1 he]
            trivial
    · exact ih₂ e he

/-! ### Minified trees -/

/-- The values of an attribute are written one after another, with a blank before each but the
first. -/
theorem Group.valueText_cons (value : String) (values : List String) :
    valueText (value :: values) = (Markup.escapeValue value).text ++
      String.join ((values.map Event.nextValue).map Event.minified) := by
  induction values generalizing value with
  | nil =>
    rw [valueText, List.map_singleton, String.intercalate_singleton]
    exact String.append_empty.symm
  | cons next values ih =>
    have hnext := ih next
    rw [valueText, List.map_cons] at hnext
    rw [valueText, List.map_cons, List.map_cons, String.intercalate_cons_cons, hnext,
      List.map_cons, List.map_cons, String.join_cons, String.append_assoc, Event.minified,
      String.append_assoc]

theorem Group.minified_events (names : Names) (g : Group String) :
    (String.join ((g.events names).map Event.minified)).toList =
      printAttribute (g.written names) := by
  obtain ⟨name, values⟩ := g
  cases values with
  | nil =>
    rw [events, List.map_cons, String.join_cons, String.toList_append, Event.minified,
      String.toList_append]
    rfl
  | cons value values =>
    have hwritten : Group.written names ⟨name, value :: values⟩ =
        (names.attr name, some (valueText (value :: values))) := rfl
    rw [hwritten, valueText_cons, events, Event.ofValues, printAttribute]
    simp only [List.map_cons, List.cons_append, List.map_append, List.map_nil, String.join_cons,
      String.join_append, String.join_nil, Event.minified, String.toList_append,
      String.append_empty, List.append_assoc]
    rfl

theorem Group.minified_flatMap_events (names : Names) (groups : List (Group String)) :
    (String.join ((groups.flatMap (Group.events names)).map Event.minified)).toList =
      (groups.map (Group.written names)).flatMap printAttribute := by
  induction groups with
  | nil => rfl
  | cons g groups ih =>
    rw [List.flatMap_cons, List.map_append, String.join_append, String.toList_append, ih,
      g.minified_events names, List.map_cons, List.flatMap_cons]

/-- **What is written for plain trees** are their lexemes, with their texts escaped. -/
theorem Tree.minified_eventsAll {names : Names} {trees : List (Tree String)}
    (h : Tree.allPlain trees) :
    (String.join ((Tree.eventsAll names trees).map Event.minified)).toList =
      ((Tree.lexemesAll names trees).map Lexeme.escape).flatMap Lexeme.print := by
  refine Tree.plain_induction ?nil ?text ?element trees h
  case nil => rfl
  case text =>
    intro value rest ih
    rw [Tree.eventsAll, Tree.events, List.singleton_append, List.map_cons, String.join_cons,
      String.toList_append, ih, Tree.lexemesAll, Tree.lexemes, Event.minified]
    by_cases hempty : value.isEmpty
    · rw [if_pos hempty, String.isEmpty_iff.1 hempty]
      rfl
    · rw [if_neg hempty]
      rfl
  case element =>
    intro name groups children rest _ ih₁ ih₂
    rw [Tree.eventsAll, Tree.lexemesAll, List.map_append, String.join_append,
      String.toList_append, ih₂, List.map_append, List.flatMap_append]
    congr 1
    rw [Tree.events, Tree.lexemes, List.cons_append, List.map_cons, List.map_append,
      String.join_cons, String.join_append, String.toList_append, String.toList_append,
      Group.minified_flatMap_events, Event.minified, String.toList_append]
    have htag : (Lexeme.startTag (names.tag name) (groups.map (Group.written names))).escape.print =
        '<' :: (names.tag name).toList ++
          (groups.map (Group.written names)).flatMap printAttribute ++ ['>'] := rfl
    have hend : (Lexeme.endTag (names.tag name)).escape.print =
        '<' :: '/' :: (names.tag name).toList ++ ['>'] := rfl
    by_cases hv : name.kind.isVoid
    · simp only [if_pos hv, List.map_cons, List.map_nil, List.flatMap_cons, List.flatMap_nil, htag,
        Event.minified, String.join_cons, String.join_nil, String.append_empty,
        String.reduceToList, List.append_nil, List.append_assoc, List.cons_append, List.nil_append]
    · simp only [if_neg hv, List.map_append, String.join_append, List.map_cons, List.map_nil,
        String.join_cons, String.join_nil, String.append_empty, String.toList_append, ih₁,
        List.flatMap_cons, List.flatMap_nil, List.flatMap_append, htag, hend, Event.minified,
        String.reduceToList, List.append_nil, List.append_assoc, List.cons_append, List.nil_append]

/-! ### Legal lexemes -/

theorem Group.quote_notMem_valueText (values : List String) :
    '"' ∉ (Group.valueText values).toList := by
  have hvalue : ∀ value, '"' ∉ (Markup.escapeValue value).text.toList := by
    intro value
    rw [Markup.toList_escapeValue]
    exact Markup.quote_notMem_written _
  cases values with
  | nil => exact List.not_mem_nil
  | cons value values =>
    rw [valueText_cons, String.toList_append, List.mem_append, String.toList_join, not_or]
    refine ⟨hvalue value, ?_⟩
    intro h
    obtain ⟨written, hmem, h⟩ := List.mem_flatMap.1 h
    obtain ⟨e, he, rfl⟩ := List.mem_map.1 hmem
    obtain ⟨value', _, rfl⟩ := List.mem_map.1 he
    rw [Event.minified, String.toList_append] at h
    rcases List.mem_append.1 h with h | h
    · cases List.mem_singleton.1 h
    · exact hvalue value' h

theorem Names.Sound.legal_tag {names : Names} (h : names.Sound) {name : ElementName}
    (hname : (names.elementText? name).isSome) : isLegalName (names.tag name) := by
  obtain ⟨text, htext⟩ := Option.isSome_iff_exists.1 hname
  rw [Names.tag, htext]
  exact h.legal_element htext

theorem Names.Sound.legal_attr {names : Names} (h : names.Sound) {name : AttributeName}
    (hname : (names.attributeText? name).isSome) : isLegalName (names.attr name) := by
  obtain ⟨text, htext⟩ := Option.isSome_iff_exists.1 hname
  rw [Names.attr, htext]
  exact h.legal_attribute htext

theorem Group.Sound.legal_written {names : Names} (hnames : names.Sound) {pool : String}
    {g : Group Quote} (h : g.Sound names pool) :
    isLegalName ((g.map Quote.text).written names).1 ∧
      ∀ value ∈ ((g.map Quote.text).written names).2, '"' ∉ value.toList := by
  refine ⟨hnames.legal_attr h.1, ?_⟩
  intro value hvalue
  rw [Group.written] at hvalue
  by_cases hempty : (g.map Quote.text).values.isEmpty
  · rw [if_pos hempty] at hvalue
    cases hvalue
  · rw [if_neg hempty] at hvalue
    cases hvalue
    exact Group.quote_notMem_valueText _

/-- **The lexemes of sound trees can be read back**, with their texts escaped. -/
theorem Tree.SoundAll.lexemes_legal {names : Names} (hnames : names.Sound) {pool : String}
    (forest : List (Tree Quote)) : Tree.SoundAll names pool forest →
      ∀ l ∈ Tree.lexemesAll names (Tree.mapAll Quote.text forest), l.escape.Legal := by
  induction forest using Tree.forest_induction with
  | nil =>
    intro _ l hl
    cases hl
  | doctype rest ih => exact fun h => ih h.2
  | raw q rest ih => exact fun h => ih h.2
  | text q rest ih =>
    intro h l hl
    rcases List.mem_append.1 hl with hl | hl
    · rw [Tree.map, Tree.lexemes] at hl
      by_cases hempty : q.text.isEmpty
      · rw [if_pos hempty] at hl
        cases hl
      · rw [if_neg hempty, List.mem_singleton] at hl
        subst hl
        refine ⟨Markup.escapeText_ne_empty (fun h => hempty (String.isEmpty_iff.2 h)), ?_⟩
        rw [Markup.toList_escapeText]
        exact Markup.lt_notMem_written _
    · exact ih h.2 l hl
  | element name groups children rest ih₁ ih₂ =>
    rintro ⟨⟨hname, _, hgroups, _, hchildren⟩, hrest⟩ l hl
    rcases List.mem_append.1 hl with hl | hl
    · have htag := hnames.legal_tag hname
      rw [Tree.map, Tree.lexemes] at hl
      rcases List.mem_cons.1 hl with rfl | hl
      · refine ⟨htag, ?_⟩
        intro attr hattr
        obtain ⟨_, hgroup, rfl⟩ := List.mem_map.1 hattr
        obtain ⟨g, hg, rfl⟩ := List.mem_map.1 hgroup
        exact (hgroups g hg).legal_written hnames
      · by_cases hv : name.kind.isVoid
        · rw [if_pos hv] at hl
          cases hl
        · rw [if_neg hv] at hl
          rcases List.mem_append.1 hl with hl | hl
          · exact ih₁ hchildren l hl
          · rw [List.mem_singleton.1 hl]
            exact htag
    · exact ih₂ hrest l hl

/-! ### Tags and strings -/

/-- **The tags of trees do not depend on their strings.** -/
theorem Tree.tags_mapAll (names : Names) (f : String → String) (trees : List (Tree String)) :
    (Tree.lexemesAll names (Tree.mapAll f trees)).filterMap Lexeme.tag? =
      (Tree.lexemesAll names trees).filterMap Lexeme.tag? := by
  induction trees using Tree.forest_induction with
  | nil => rfl
  | doctype rest ih => exact ih
  | raw value rest ih => exact ih
  | text value rest ih =>
    have htext : ∀ value, ((Tree.text value).lexemes names).filterMap Lexeme.tag? = [] := by
      intro value
      rw [Tree.lexemes]
      by_cases hempty : value.isEmpty
      · rw [if_pos hempty]
        rfl
      · rw [if_neg hempty]
        rfl
    rw [Tree.mapAll, Tree.lexemesAll, Tree.lexemesAll, List.filterMap_append,
      List.filterMap_append, ih, Tree.map, htext, htext]
  | element name groups children rest ih₁ ih₂ =>
    have hattrs : (Lexeme.startTag (names.tag name)
        ((groups.map (Group.map f)).map (Group.written names))).tag? =
          (Lexeme.startTag (names.tag name) (groups.map (Group.written names))).tag? := by
      rw [Lexeme.tag?, Lexeme.tag?, List.map_map, List.map_map, List.map_map]
      refine congrArg (fun attributes => some (Lexeme.startTag _ attributes)) ?_
      refine List.map_congr_left fun g _ => ?_
      obtain ⟨name, values⟩ := g
      cases values <;> rfl
    rw [Tree.mapAll, Tree.lexemesAll, Tree.lexemesAll, List.filterMap_append,
      List.filterMap_append, ih₂, Tree.map, Tree.lexemes, Tree.lexemes, List.filterMap_cons,
      List.filterMap_cons, hattrs]
    by_cases hv : name.kind.isVoid
    · rw [if_pos hv, if_pos hv]
    · rw [if_neg hv, if_neg hv, List.filterMap_append, List.filterMap_append, ih₁]

/-! ### A link -/

/-- A document with values and texts that look like markup, an attribute with two values, two
texts that touch, an empty text and a void element. -/
def Recording.linkCalls : List SpelledCall :=
  [.openElement (.spelled "a"), .valued (.spelled "title") "\"><b",
    .boolean (.spelled "x-new"), .valued (.spelled "title") "&amp; c", .text "1 < 2", .text "</a>",
    .openElement (.spelled "br"), .closeElement, .text "", .closeElement]

def Recording.link : Recording where
  words := #[245, 36, 0, 243, 99, 0, 4, 244, 106, 243, 99, 4, 7, 240, 11, 5, 240, 16, 4, 245, 5, 13,
    0, 246, 240, 20, 0, 3, 7, 9, 13, 16, 19, 24, 7, 246, 248, 1, 0]
  pool := "\"><b&amp; c1 < 2</a>"
  names := { Names.standard with attributes := ⟨standardAttributes.size, #["x-new"]⟩ }
  root := 36
  counters := ⟨2, 3, 3, 0, 8, 2⟩

/-! ### Reading minified markup -/

/-- Minified markup of plain trees is written as the lexemes of the trees. -/
theorem Document.Spells.render_minified {d : Document} {forest : List (Tree Quote)}
    (h : d.Spells forest) (hplain : Tree.allPlain (Tree.mapAll Quote.text forest)) :
    ∃ html, d.render .minified = .ok html ∧ html.toList =
      ((Tree.lexemesAll d.names (Tree.mapAll Quote.text forest)).map Lexeme.escape).flatMap
        Lexeme.print := by
  refine ⟨Format.minified.text (pieces _), by rw [Document.render_eq, h.allEvents]; rfl, ?_⟩
  have hescaped : ∀ e ∈ .documentStart ::
      Tree.eventsAll d.names (Tree.mapAll Quote.text forest) ++ [.documentEnd], e.Escaped := by
    intro e he
    rcases List.mem_append.1 he with he | he
    · rcases List.mem_cons.1 he with rfl | he
      · trivial
      · exact Tree.events_escaped hplain e he
    · rw [List.mem_singleton.1 he]
      trivial
  rw [Format.text_eq]
  show (Piece.fillAll "" ">" (Layout.start.run _).1).toList = _
  rw [Layout.run_minified Layout.escapes_start hescaped, ← Tree.minified_eventsAll hplain,
    List.cons_append, List.map_cons, List.map_append, String.join_cons, String.join_append]
  simp only [Event.minified, List.map_cons, List.map_nil, String.join_cons, String.join_nil,
    String.empty_append, String.append_empty]

/-- **The tags and the texts of a document are found in its minified markup.**  If a recording
consists of elements other than scripts and style sheets, of attributes and of texts, then a plain
reader reads the minified markup to its end.  It finds the start tags with their attributes, the end
tags and the texts of the trees, with texts that touch as one; and the tags are those of the trees
without their strings. -/
theorem Recording.lexemes_of_madeBy {t : Recording} {calls : List SpelledCall}
    (h : t.MadeBy calls) {draft : Draft String} (hdraft : Draft.new.requestEach calls = some draft)
    (hplain : Tree.allPlain draft.trees) :
    ∃ (d : Document) (html : String) (lexemes : List Lexeme), t.compile = .ok d ∧
      d.render .minified = .ok html ∧ lexemes? html.toList = some lexemes ∧
      lexemes.map Lexeme.read = Lexeme.joinTexts (Tree.lexemesAll draft.names draft.trees) ∧
      lexemes.filterMap Lexeme.tag? =
        (Tree.lexemesAll draft.names (Tree.mapAll (fun _ => "") draft.trees)).filterMap
          Lexeme.tag? := by
  obtain ⟨draft', d, hcalls, _, hcompile, hnames, hspells⟩ := h.compile
  obtain rfl : draft'.map Quote.text = draft := Option.some.inj (hcalls.symm.trans hdraft)
  have hsound : d.names.Sound := hnames ▸ Draft.names_sound hdraft
  rw [Draft.trees_map] at hplain
  obtain ⟨html, hrender, hhtml⟩ := hspells.render_minified hplain
  have hlegal : ∀ l ∈ (Tree.lexemesAll d.names
      (Tree.mapAll Quote.text draft'.trees)).map Lexeme.escape, l.Legal := by
    intro l hl
    obtain ⟨l', hl', rfl⟩ := List.mem_map.1 hl
    exact hspells.sound.lexemes_legal hsound _ l' hl'
  have hread := Markup.lexemes?_print hlegal
  rw [← hhtml, Lexeme.joinTexts_map_escape] at hread
  have hmap : (draft'.map Quote.text).names = d.names := hnames.symm
  rw [Draft.trees_map, hmap]
  refine ⟨d, html, _, hcompile, hrender, hread, ?_, ?_⟩
  · have hid : Lexeme.read ∘ Lexeme.escape = id := funext Lexeme.read_escape
    rw [List.map_map, hid, List.map_id]
  · have htags : Lexeme.tag? ∘ Lexeme.escape = Lexeme.tag? := funext Lexeme.tag?_escape
    rw [List.filterMap_map, htags, Lexeme.tags_joinTexts, Tree.tags_mapAll]

theorem Recording.link_lexemes : ∃ draft : Draft String, link.MadeBy linkCalls ∧
    Draft.new.requestEach linkCalls = some draft ∧ Tree.allPlain draft.trees ∧
    ∃ (d : Document) (html : String) (lexemes : List Lexeme), link.compile = .ok d ∧
      d.render .minified = .ok html ∧ lexemes? html.toList = some lexemes ∧
      lexemes.map Lexeme.read = Lexeme.joinTexts (Tree.lexemesAll draft.names draft.trees) ∧
      lexemes.filterMap Lexeme.tag? =
        (Tree.lexemesAll draft.names (Tree.mapAll (fun _ => "") draft.trees)).filterMap
          Lexeme.tag? := by
  have hlink : link.MadeBy linkCalls := by decide +kernel
  have hplain : (Draft.new.requestEach linkCalls).any fun draft => Tree.allPlain draft.trees := by
    decide +kernel
  obtain ⟨draft, hdraft, hplain⟩ := (Option.any_eq_true _ _).1 hplain
  exact ⟨draft, hlink, hdraft, hplain, lexemes_of_madeBy hlink hdraft hplain⟩

end HtmlTape
