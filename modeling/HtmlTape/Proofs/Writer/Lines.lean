import HtmlTape.Proofs.Writer.Inline
import Mathlib.Data.List.Chain

/-!
# The lines of pretty markup

Pretty markup has no empty lines, as long as there are no scripts or style sheets and no line feeds
in the literals of the document.  A break is only written where something else was written right
before it, and right behind a break something without line feeds is written
(`Layout.step_eq_breakIf`).  So at every moment the text that was written has no empty line and
its last line is not ended yet (`Layout.Neat`); the end of the document ends that line, unless
nothing was written at all (`Recording.lines_of_madeBy`).
-/

namespace HtmlTape

/-! ### Texts whose last line is not ended -/

structure Text.Unended (text : List Char) : Prop where
  chain : text.IsChain fun a b => ¬ (a = '\n' ∧ b = '\n')
  head : text.head? ≠ some '\n'
  last : text.getLast? ≠ some '\n'

namespace Text.Unended

variable {text a b : List Char}

theorem of_notMem (h : '\n' ∉ text) : Unended text := by
  refine ⟨?_, fun hhead => h (List.mem_of_mem_head? hhead),
    fun hlast => h (List.mem_of_getLast? hlast)⟩
  refine List.Pairwise.isChain (List.pairwise_of_forall_mem_list fun c hc _ _ hline => ?_)
  exact h (hline.1 ▸ hc)

theorem append (ha : Unended a) (hb : Unended b) : Unended (a ++ b) := by
  refine ⟨List.isChain_append.2 ⟨ha.chain, hb.chain, ?_⟩, ?_, ?_⟩
  · rintro c hc _ _ ⟨rfl, -⟩
    exact ha.last hc
  · cases a with
    | nil => exact hb.head
    | cons c a => exact ha.head
  · cases b with
    | nil => exact (List.append_nil a).symm ▸ ha.last
    | cons c b => exact (List.getLast?_append_of_ne_nil a (List.cons_ne_nil c b)).symm ▸ hb.last

/-- A line is ended if something stands in it, and another line follows. -/
theorem append_line (ha : Unended a) (hne : a ≠ []) (hb : Unended b) (hne' : b ≠ []) :
    Unended (a ++ '\n' :: b) := by
  refine ⟨List.isChain_append.2 ⟨ha.chain, List.isChain_cons.2 ⟨?_, hb.chain⟩, ?_⟩, ?_, ?_⟩
  · rintro c hc ⟨-, rfl⟩
    exact hb.head hc
  · rintro c hc _ _ ⟨rfl, -⟩
    exact ha.last hc
  · cases a with
    | nil => exact absurd rfl hne
    | cons c a => exact ha.head
  · rw [List.getLast?_append_of_ne_nil a (List.cons_ne_nil _ b)]
    cases b with
    | nil => exact absurd rfl hne'
    | cons c b => exact hb.last

/-- **There are no two line feeds in a row**, also not if the last line is ended. -/
theorem not_infix (h : Unended text) (trail : List Char) (htrail : trail = [] ∨ trail = ['\n']) :
    ¬ ['\n', '\n'] <:+: text ++ trail := by
  have hchain : (text ++ trail).IsChain fun a b => ¬ (a = '\n' ∧ b = '\n') := by
    refine List.isChain_append.2 ⟨h.chain, ?_, ?_⟩
    · rcases htrail with rfl | rfl
      · exact .nil
      · exact .singleton _
    · rintro c hc _ _ ⟨rfl, -⟩
      exact h.last hc
  rintro ⟨before, after, heq⟩
  rw [← heq, List.append_assoc] at hchain
  have hmiddle := (List.isChain_append.1 hchain).2.1
  exact (List.isChain_cons.1 hmiddle).1 '\n' rfl ⟨rfl, rfl⟩

end Text.Unended

/-! ### What is written for one event -/

theorem Piece.lineFeed_notMem_fillAll {lineBreak voidClose : String} {pieces : List Piece}
    (hvoid : '\n' ∉ voidClose.toList) (hbreak : .lineBreak ∉ pieces)
    (hchunks : ∀ text, .chunk text ∈ pieces → '\n' ∉ text.toList) :
    '\n' ∉ (fillAll lineBreak voidClose pieces).toList := by
  rw [fillAll, String.toList_join]
  intro hmem
  obtain ⟨text, htext, hc⟩ := List.mem_flatMap.1 hmem
  obtain ⟨piece, hpiece, rfl⟩ := List.mem_map.1 htext
  cases piece with
  | chunk text => exact hchunks text hpiece hc
  | lineBreak => exact hbreak hpiece
  | voidClose => exact hvoid hc

theorem Piece.toList_fillAll_breakIf (voidClose : String) (condition : Bool) :
    (fillAll "\n" voidClose (Layout.breakIf condition)).toList =
      if condition then ['\n'] else [] := by
  cases condition with
  | false => rfl
  | true =>
    simp [Layout.breakIf, fillAll, fill]

theorem Piece.fillAll_ne {lineBreak voidClose : String} {piece : Piece} {pieces : List Piece}
    (hmem : piece ∈ pieces) (h : piece.fill lineBreak voidClose ≠ "") :
    fillAll lineBreak voidClose pieces ≠ "" := by
  intro hall
  refine h (String.toList_inj.1 (List.eq_nil_iff_forall_not_mem.2 fun c hc => ?_))
  have hin : c ∈ (fillAll lineBreak voidClose pieces).toList := by
    rw [fillAll, String.toList_join]
    exact List.mem_flatMap.2 ⟨_, List.mem_map_of_mem hmem, hc⟩
  rw [hall] at hin
  cases hin

theorem Markup.join_textChunks_ne {value : String} (h : value.isEmpty = false) :
    String.join (textChunks value) ≠ "" := by
  intro hjoin
  have hwritten := join_textChunks value
  rw [hjoin] at hwritten
  have hread := readText_written value.toList
  rw [← hwritten] at hread
  rw [String.isEmpty_iff.2 (String.toList_inj.1 hread.symm)] at h
  cases h

namespace Layout

variable {s : Layout} {e : Event} {voidClose : String}

/-- A break comes before what is written for the event. -/
def breaks (s : Layout) : Event → Bool
  | .doctype => s.place != .start
  | .startTag _ kind => breaksBefore s.place kind
  | .text value => !value.isEmpty && (s.place == .blockEnd && !startsLine value)
  | .endTag .. => s.opened.head?.any (breaksBeforeEnd s.place)
  | _ => false

/-- **What is written for an event** is something without breaks, perhaps with a break before it.
-/
theorem step_eq_breakIf (hplace : s.place ≠ .script) (hraw : s.inRawText = false)
    (hend : e ≠ .documentEnd) (hvoid : voidClose ≠ "") :
    ∃ solid, (s.step e).1 = breakIf (s.breaks e) ++ solid ∧ .lineBreak ∉ solid ∧
      (e.writes → Piece.fillAll "\n" voidClose solid ≠ "") := by
  have hvalue : ∀ value, .lineBreak ∉ valuePieces value := by simp [valuePieces]
  cases e with
  | documentStart => exact ⟨[], rfl, by simp, fun h => absurd h Bool.false_ne_true⟩
  | doctype =>
    exact ⟨[.chunk "<!DOCTYPE html>"], rfl, by simp, fun _ =>
      Piece.fillAll_ne List.mem_cons_self (by simp [Piece.fill])⟩
  | startTag name kind =>
    exact ⟨[.chunk "<", .chunk name], rfl, by simp, fun _ =>
      Piece.fillAll_ne List.mem_cons_self (by simp [Piece.fill])⟩
  | attributeName name =>
    exact ⟨[.chunk " ", .chunk name], rfl, by simp, fun _ =>
      Piece.fillAll_ne List.mem_cons_self (by simp [Piece.fill])⟩
  | firstValue value =>
    exact ⟨.chunk "=\"" :: valuePieces value, rfl, by simp [hvalue], fun _ =>
      Piece.fillAll_ne List.mem_cons_self (by simp [Piece.fill])⟩
  | nextValue value =>
    exact ⟨.chunk " " :: valuePieces value, rfl, by simp [hvalue], fun _ =>
      Piece.fillAll_ne List.mem_cons_self (by simp [Piece.fill])⟩
  | valueEnd =>
    exact ⟨[.chunk "\""], rfl, by simp, fun _ =>
      Piece.fillAll_ne List.mem_cons_self (by simp [Piece.fill])⟩
  | startTagEnd hasChildren =>
    exact ⟨[.chunk ">"], rfl, by simp, fun _ =>
      Piece.fillAll_ne List.mem_cons_self (by simp [Piece.fill])⟩
  | voidEnd =>
    exact ⟨[.voidClose], rfl, by simp, fun _ => Piece.fillAll_ne List.mem_cons_self hvoid⟩
  | text value =>
    rw [step, breaks, Event.writes]
    by_cases hempty : value.isEmpty
    · rw [if_pos hempty, hempty]
      exact ⟨[], rfl, by simp, fun h => absurd h Bool.false_ne_true⟩
    · have hscript : (s.place == .script) = false := beq_eq_false_iff_ne.2 hplace
      rw [if_neg hempty, hscript, Bool.not_eq_true] at *
      refine ⟨s.textPieces value, ?_, ?_, fun _ => ?_⟩
      · simp [hempty, breakIf]
      · simp [textPieces, hraw]
      · rw [textPieces, hraw, if_neg Bool.false_ne_true, Piece.fillAll_chunks]
        exact Markup.join_textChunks_ne hempty
  | raw value =>
    rw [step, Event.writes]
    by_cases hempty : value.isEmpty
    · rw [if_pos hempty, hempty]
      exact ⟨[], rfl, by simp, fun h => absurd h Bool.false_ne_true⟩
    · rw [if_neg hempty]
      refine ⟨[.chunk value], rfl, by simp, fun _ => Piece.fillAll_ne List.mem_cons_self ?_⟩
      exact fun h => hempty (String.isEmpty_iff.2 h)
  | endTag name kind =>
    refine ⟨[.chunk "</", .chunk name, .chunk ">"], ?_, by simp, fun _ =>
      Piece.fillAll_ne List.mem_cons_self (by simp [Piece.fill])⟩
    obtain ⟨place, opened⟩ := s
    cases opened with
    | nil => rfl
    | cons o outer => rfl
  | documentEnd => exact absurd rfl hend

end Layout

/-! ### Neat layouts -/

/-- The place is neither before everything else nor at a script or style sheet. -/
def Place.Settled (p : Place) : Prop :=
  p ≠ .start ∧ p ≠ .script

instance (p : Place) : Decidable p.Settled :=
  inferInstanceAs (Decidable (p ≠ .start ∧ p ≠ .script))

structure OpenElement.Plain (o : OpenElement) : Prop where
  after : o.after.Settled
  inside : o.inside.Settled
  isRawText : o.isRawText = false

theorem OpenElement.plain_ofKind {kind : ElementKind} (h : kind.isRawText = false) :
    (ofKind kind).Plain := by
  rw [ofKind, if_neg (Bool.not_eq_true _ ▸ h)]
  by_cases hphrasing : kind.isPhrasing
  · rw [if_pos hphrasing]
    exact ⟨by decide, by decide, rfl⟩
  · rw [if_neg hphrasing]
    exact ⟨by decide, by decide, rfl⟩

/-- The event opens no script and no style sheet, has no line feed in it, and does not end the
document. -/
structure Event.Plain (e : Event) : Prop where
  escaped : e.Escaped
  oneLine : e.OneLine
  ne_documentEnd : e ≠ .documentEnd

namespace Layout

variable {s : Layout} {n n' : Nesting} {e : Event} {es : List Event} {out : List Char}
  {voidClose : String}

/-- What was written so far is neat, and the layout goes with it and with the place where a listener
stands. -/
structure Neat (s : Layout) (n : Nesting) (out : List Char) : Prop where
  opened : ∀ o ∈ s.opened, o.Plain
  length : s.opened.length = n.kinds.length
  place : s.place ≠ .script
  /-- Outside of tags the layout knows whether anything was written. -/
  started : n.awaits ≠ .tag → (s.place = .start ↔ out = [])
  inside : s.opened ≠ [] → out ≠ []
  unended : Text.Unended out

theorem neat_start : start.Neat ⟨[], .content⟩ [] :=
  ⟨nofun, rfl, nofun, fun _ => iff_of_true rfl rfl, fun h => absurd rfl h,
    .of_notMem List.not_mem_nil⟩

namespace Neat

theorem inRawText (h : s.Neat n out) : s.inRawText = false :=
  Escapes.inRawText fun o ho => (h.opened o ho).isRawText

theorem opened_countChild (h : s.Neat n out) : (∀ o ∈ s.countChild.opened, o.Plain) ∧
    s.countChild.opened.length = n.kinds.length := by
  obtain ⟨place, opened⟩ := s
  cases opened with
  | nil => exact ⟨nofun, h.length⟩
  | cons o outer =>
    obtain ⟨ho, houter⟩ := List.forall_mem_cons.1 h.opened
    exact ⟨List.forall_mem_cons.2 ⟨⟨ho.after, ho.inside, ho.isRawText⟩, houter⟩, h.length⟩

/-- **A break only comes behind something.** -/
theorem of_breaks (h : s.Neat n out) (hstep : n.Step e n') (hbreaks : s.breaks e) : out ≠ [] := by
  cases hstep with
  | doctype =>
    exact fun hout => bne_iff_ne.1 hbreaks ((h.started nofun).2 hout)
  | text value =>
    intro hout
    simp [breaks, (h.started nofun).2 hout] at hbreaks
  | @startTag _ kind name hkind =>
    intro hout
    rw [breaks, breaksBefore, (h.started nofun).2 hout] at hbreaks
    by_cases hphrasing : kind.isPhrasing <;> simp [hphrasing] at hbreaks
  | endTag name kind =>
    refine h.inside fun hopened => ?_
    rw [breaks, hopened] at hbreaks
    cases hbreaks
  | documentEnd =>
    cases hbreaks
  | inTag hattr =>
    cases e <;> first | cases hbreaks | cases hattr
  | documentStart | raw | startTagEnd | voidEnd => cases hbreaks

/-- **What was written stays neat with every event**, and nothing is left to be written only for
events for which nothing is written. -/
theorem unended_step (h : s.Neat n out) (hstep : n.Step e n') (he : e.Plain)
    (hvoid : '\n' ∉ voidClose.toList) (hne : voidClose ≠ "") :
    Text.Unended (out ++ (Piece.fillAll "\n" voidClose (s.step e).1).toList) ∧
      (out ++ (Piece.fillAll "\n" voidClose (s.step e).1).toList = [] ↔
        out = [] ∧ e.writes = false) := by
  obtain ⟨solid, hpieces, hbreak, hwrites⟩ :=
    step_eq_breakIf h.place h.inRawText he.ne_documentEnd hne
  have hsolid : '\n' ∉ (Piece.fillAll "\n" voidClose solid).toList :=
    Piece.lineFeed_notMem_fillAll hvoid hbreak fun text htext =>
      step_chunks (s := s) he.oneLine (hpieces ▸ List.mem_append_right _ htext)
  cases hbreaks : s.breaks e with
  | false =>
    rw [hbreaks] at hpieces
    have hbody : (s.step e).1 = solid := hpieces
    rw [hbody]
    refine ⟨h.unended.append (.of_notMem hsolid), ?_⟩
    rw [List.append_eq_nil_iff, String.toList_eq_nil_iff, and_congr_right_iff]
    refine fun _ => ⟨fun hempty => Bool.eq_false_iff.2 fun hw => hwrites hw hempty, fun hw => ?_⟩
    rw [← hbody, step_of_not_writes s hw]
    rfl
  | true =>
    have hw : e.writes := by
      by_contra hw
      rw [step_of_not_writes s (Bool.eq_false_iff.2 hw), hbreaks] at hpieces
      cases hpieces
    have hbody : (Piece.fillAll "\n" voidClose (s.step e).1).toList =
        '\n' :: (Piece.fillAll "\n" voidClose solid).toList := by
      rw [hpieces, Piece.fillAll_append, String.toList_append, hbreaks,
        Piece.toList_fillAll_breakIf]
      rfl
    rw [hbody, hw]
    refine ⟨h.unended.append_line (h.of_breaks hstep hbreaks) (.of_notMem hsolid) fun hempty =>
      hwrites hw (String.toList_eq_nil_iff.1 hempty), ?_⟩
    simp

/-- **The layout goes with what was written** after every event but the last one. -/
theorem step (h : s.Neat n out) (hstep : n.Step e n') (he : e.Plain)
    (hvoid : '\n' ∉ voidClose.toList) (hne : voidClose ≠ "") :
    (s.step e).2.Neat n' (out ++ (Piece.fillAll "\n" voidClose (s.step e).1).toList) := by
  obtain ⟨hunended, hempty⟩ := h.unended_step hstep he hvoid hne
  generalize out ++ (Piece.fillAll "\n" voidClose (s.step e).1).toList = out' at *
  obtain ⟨hopened, hlength⟩ := h.opened_countChild
  by_cases hw : e.writes
  · have hout : out' ≠ [] := by simp [hempty, hw]
    have hsettled : ∀ {s' : Layout}, (∀ o ∈ s'.opened, o.Plain) →
        s'.opened.length = n'.kinds.length → s'.place ≠ .script →
        (n'.awaits ≠ .tag → s'.place ≠ .start) → s'.Neat n' out' :=
      fun ho hl hp hs => ⟨ho, hl, hp, fun ha => iff_of_false (hs ha) hout, fun _ => hout, hunended⟩
    have hplaced : ∀ {s' : Layout}, (∀ o ∈ s'.opened, o.Plain) →
        s'.opened.length = n'.kinds.length → s'.place.Settled → s'.Neat n' out' :=
      fun ho hl hp => hsettled ho hl hp.2 fun _ => hp.1
    cases hstep with
    | documentStart => cases hw
    | doctype => exact hplaced hopened hlength (show Place.Settled .blockEnd by decide)
    | text value | raw value =>
      have hvalue : ¬ value.isEmpty := by simpa [Event.writes] using hw
      rw [Layout.step, if_neg hvalue]
      exact hplaced hopened hlength (show Place.Settled .phrase by decide)
    | startTag name hkind =>
      refine hsettled (List.forall_mem_cons.2 ⟨OpenElement.plain_ofKind he.escaped, hopened⟩) ?_
        h.place (fun ha => absurd rfl ha)
      exact congrArg Nat.succ hlength
    | inTag hattr =>
      rw [step_of_isAttribute s hattr]
      exact hsettled h.opened h.length h.place (fun ha => absurd rfl ha)
    | startTagEnd hasChildren =>
      obtain ⟨place, opened⟩ := s
      cases opened with
      | nil => cases h.length
      | cons o outer =>
        have ho := h.opened o List.mem_cons_self
        exact hplaced h.opened h.length ho.inside
    | voidEnd hkind =>
      obtain ⟨place, opened⟩ := s
      cases opened with
      | nil => cases h.length
      | cons o outer =>
        obtain ⟨ho, houter⟩ := List.forall_mem_cons.1 h.opened
        exact hplaced houter (Nat.succ.inj h.length) ho.after
    | endTag name kind =>
      obtain ⟨place, opened⟩ := s
      cases opened with
      | nil => cases h.length
      | cons o outer =>
        obtain ⟨ho, houter⟩ := List.forall_mem_cons.1 h.opened
        exact hplaced houter (Nat.succ.inj h.length) ho.after
    | documentEnd => exact absurd rfl he.ne_documentEnd
  · have hw : e.writes = false := Bool.eq_false_iff.2 hw
    have hsame : n' = n := by
      cases hstep with
      | inTag hattr => rfl
      | documentStart | doctype | text | raw => rfl
      | _ => cases hw
    have hout : out' = [] ↔ out = [] := hempty.trans (and_iff_left hw)
    rw [step_of_not_writes s hw, hsame]
    exact ⟨h.opened, h.length, h.place, fun ha => (h.started ha).trans hout.symm,
      fun ho => mt hout.1 (h.inside ho), hunended⟩

/-- **What was written stays neat with all events** but the last one. -/
theorem run (hrun : n.Run es n') (hes : ∀ e ∈ es, e.Plain) (hvoid : '\n' ∉ voidClose.toList)
    (hne : voidClose ≠ "") : ∀ {s : Layout} {out : List Char}, s.Neat n out →
    (s.run es).2.Neat n' (out ++ (Piece.fillAll "\n" voidClose (s.run es).1).toList) ∧
      (out ++ (Piece.fillAll "\n" voidClose (s.run es).1).toList = [] ↔
        out = [] ∧ ∀ e ∈ es, e.writes = false) := by
  induction hrun with
  | nil n =>
    intro s out h
    show s.Neat n (out ++ []) ∧ (out ++ [] = [] ↔ _)
    rw [List.append_nil]
    exact ⟨h, by simp⟩
  | cons hstep _ ih =>
    intro s out h
    obtain ⟨he, hes⟩ := List.forall_mem_cons.1 hes
    obtain ⟨hneat, hempty⟩ := ih hes (h.step hstep he hvoid hne)
    rw [run_cons_fst, run_cons_snd, Piece.fillAll_append, String.toList_append,
      ← List.append_assoc, List.forall_mem_cons]
    refine ⟨hneat, hempty.trans ?_⟩
    rw [(h.unended_step hstep he hvoid hne).2, and_assoc]

end Neat

end Layout

/-! ### Documents -/

def Text.isLine (text : String) : Bool :=
  !text.toList.contains '\n'

mutual

/-- The tree has no scripts and no style sheets, and no line feeds in its texts, its raw markup and
its attribute values. -/
def Tree.isUnbroken : Tree String → Bool
  | .doctype => true
  | .text value | .raw value => Text.isLine value
  | .element name groups children =>
    !name.kind.isRawText && groups.all (fun g => g.values.all Text.isLine) &&
      Tree.allUnbroken children

def Tree.allUnbroken : List (Tree String) → Bool
  | [] => true
  | tree :: rest => tree.isUnbroken && Tree.allUnbroken rest

end

theorem Text.lineFeed_notMem_of_isLine {text : String} (h : isLine text) : '\n' ∉ text.toList := by
  simpa [isLine] using h

theorem Event.Plain.of_bare {e : Event} (hescaped : e.Escaped) (hvalue : e.value? = none)
    (hname : e.name? = none) (hend : e ≠ .documentEnd) : e.Plain :=
  ⟨hescaped, ⟨by simp [hvalue], by simp [hname]⟩, hend⟩

theorem Event.Plain.of_value {e : Event} {value : String} (hescaped : e.Escaped)
    (hvalue : e.value? = some value) (hname : e.name? = none) (hend : e ≠ .documentEnd)
    (hline : Text.isLine value) : e.Plain :=
  ⟨hescaped, ⟨by simpa [hvalue] using Text.lineFeed_notMem_of_isLine hline, by simp [hname]⟩, hend⟩

theorem Event.Plain.of_name {e : Event} {name : String} (hescaped : e.Escaped)
    (hvalue : e.value? = none) (hname : e.name? = some name) (hend : e ≠ .documentEnd)
    (hline : '\n' ∉ name.toList) : e.Plain :=
  ⟨hescaped, ⟨by simp [hvalue], by simpa [hname] using hline⟩, hend⟩

theorem Group.events_plain {names : Names} (hnames : names.Sound) {g : Group String}
    (h : ∀ value ∈ g.values, Text.isLine value) : ∀ e ∈ g.events names, e.Plain := by
  intro e he
  obtain ⟨name, values⟩ := g
  rcases List.mem_cons.1 he with rfl | he
  · exact .of_name trivial rfl rfl (by simp) (hnames.lineFeed_notMem_attr name)
  cases values with
  | nil => cases he
  | cons value values =>
    obtain ⟨hvalue, hvalues⟩ := List.forall_mem_cons.1 h
    simp only [Event.ofValues, List.cons_append, List.mem_cons, List.mem_append, List.mem_map,
      List.not_mem_nil, or_false] at he
    rcases he with rfl | ⟨v, hv, rfl⟩ | rfl
    · exact .of_value trivial rfl rfl (by simp) hvalue
    · exact .of_value trivial rfl rfl (by simp) (hvalues v hv)
    · exact .of_bare trivial rfl rfl (by simp)

/-- **The events of trees** without scripts, style sheets and line feeds. -/
theorem Tree.events_plain {names : Names} (hnames : names.Sound) (trees : List (Tree String)) :
    Tree.allUnbroken trees → ∀ e ∈ Tree.eventsAll names trees, e.Plain := by
  induction trees using Tree.forest_induction with
  | nil => exact fun _ => nofun
  | doctype rest ih =>
    intro h
    rw [allUnbroken, isUnbroken, Bool.true_and] at h
    exact List.forall_mem_cons.2 ⟨.of_bare trivial rfl rfl (by simp), ih h⟩
  | text value rest ih | raw value rest ih =>
    intro h
    rw [allUnbroken, isUnbroken, Bool.and_eq_true] at h
    exact List.forall_mem_cons.2 ⟨.of_value trivial rfl rfl (by simp) h.1, ih h.2⟩
  | element name groups children rest ih₁ ih₂ =>
    intro h
    rw [allUnbroken, isUnbroken, Bool.and_eq_true, Bool.and_eq_true, Bool.and_eq_true,
      Bool.not_eq_true'] at h
    obtain ⟨⟨⟨hraw, hgroups⟩, hchildren⟩, hrest⟩ := h
    have hattrs : ∀ e ∈ groups.flatMap (Group.events names), e.Plain := by
      intro e he
      obtain ⟨g, hg, he⟩ := List.mem_flatMap.1 he
      exact Group.events_plain hnames
        (List.all_eq_true.1 (List.all_eq_true.1 hgroups g hg)) e he
    have hclose : ∀ e ∈ if name.kind.isVoid then [Event.voidEnd]
        else .startTagEnd (!children.isEmpty) :: Tree.eventsAll names children ++
          [.endTag (names.tag name) name.kind], e.Plain := by
      by_cases hvoid : name.kind.isVoid
      · rw [if_pos hvoid]
        exact List.forall_mem_singleton.2 (.of_bare trivial rfl rfl (by simp))
      · rw [if_neg hvoid]
        refine List.forall_mem_append.2 ⟨List.forall_mem_cons.2
          ⟨.of_bare trivial rfl rfl (by simp), ih₁ hchildren⟩, List.forall_mem_singleton.2 ?_⟩
        exact .of_name trivial rfl rfl (by simp) (hnames.lineFeed_notMem_tag name)
    refine List.forall_mem_append.2 ⟨List.forall_mem_append.2
      ⟨List.forall_mem_cons.2 ⟨?_, hattrs⟩, hclose⟩, ih₂ hrest⟩
    exact .of_name hraw rfl rfl (by simp) (hnames.lineFeed_notMem_tag name)

/-- Nothing is written for trees that are texts and raw markup without anything in them. -/
theorem Tree.not_writes_iff (names : Names) (trees : List (Tree String)) :
    (∀ e ∈ Tree.eventsAll names trees, e.writes = false) ↔
      ∀ tree ∈ trees, tree = .text "" ∨ tree = .raw "" := by
  induction trees with
  | nil => simp [eventsAll]
  | cons tree rest ih =>
    rw [eventsAll, List.forall_mem_append, ih, List.forall_mem_cons]
    refine and_congr_left' ?_
    cases tree with
    | doctype => simp [events, Event.writes]
    | text value | raw value => simp [events, Event.writes]
    | element name groups children => simp [events, Event.writes]

/-- What is written for a document: neat text, and the end of its last line if there is one. -/
theorem Layout.toList_text {body : List Event}
    (hrun : Nesting.Run ⟨[], .content⟩ body ⟨[], .content⟩) (hplain : ∀ e ∈ body, e.Plain)
    (voidStyle : VoidStyle) :
    ∃ out : List Char, Text.Unended out ∧ (out = [] ↔ ∀ e ∈ body, e.writes = false) ∧
      (Format.text ⟨.pretty, .lf, voidStyle⟩
        (pieces (.documentStart :: body ++ [.documentEnd]))).toList =
          out ++ if out = [] then [] else ['\n'] := by
  have hvoid : '\n' ∉ voidStyle.text.toList ∧ voidStyle.text ≠ "" := by
    cases voidStyle <;> decide
  obtain ⟨hneat, hempty⟩ := neat_start.run hrun hplain hvoid.1 hvoid.2
  rw [List.nil_append] at hneat hempty
  refine ⟨_, hneat.unended, hempty.trans (and_iff_right rfl), ?_⟩
  have hpieces : pieces (.documentStart :: body ++ [.documentEnd]) =
      (start.run body).1 ++ breakIf ((start.run body).2.place != .start) := by
    rw [pieces, List.cons_append, run_cons_fst, run_append]
    exact congrArg ((start.run body).1 ++ ·) (List.append_nil _)
  have hplace := hneat.started (by decide)
  rw [Format.text_eq, hpieces, Piece.fillAll_append, String.toList_append]
  refine congrArg (_ ++ ·) ((Piece.toList_fillAll_breakIf _ _).trans ?_)
  by_cases hstart : (start.run body).2.place = .start
  · rw [if_pos (hplace.1 hstart), hstart]
    rfl
  · rw [if_neg (mt hplace.2 hstart), if_pos (bne_iff_ne.2 hstart)]

/-- The markup has no two line feeds in a row and does not start with one.  It is empty exactly if
nothing of the trees has any text, and else it ends with one line feed. -/
structure Tree.NeatlyWritten (trees : List (Tree String)) (html : String) : Prop where
  single : ¬ ['\n', '\n'] <:+: html.toList
  head : html.toList.head? ≠ some '\n'
  empty : html = "" ↔ ∀ tree ∈ trees, tree = .text "" ∨ tree = .raw ""
  last : html = "" ∨ ∃ lines : String, html = lines ++ "\n" ∧ lines.toList.getLast? ≠ some '\n'

/-- **Pretty markup has no stray line feeds.**  If a recording has no scripts and no style sheets,
and no line feeds in its texts, its raw markup and its attribute values, then its pretty markup is
written neatly. -/
theorem Recording.lines_of_madeBy {t : Recording} {calls : List SpelledCall}
    (h : t.MadeBy calls) {draft : Draft String} (hdraft : Draft.new.requestEach calls = some draft)
    (hunbroken : Tree.allUnbroken draft.trees) :
    ∃ d : Document, t.compile = .ok d ∧ ∀ voidStyle : VoidStyle, ∃ html : String,
      d.render ⟨.pretty, .lf, voidStyle⟩ = .ok html ∧ Tree.NeatlyWritten draft.trees html := by
  obtain ⟨draft', d, hcalls, hcompile, hnames, hevents⟩ := h.played
  obtain rfl : draft' = draft := Option.some.inj (hcalls.symm.trans hdraft)
  refine ⟨d, hcompile, fun voidStyle => ?_⟩
  obtain ⟨out, hout, hempty, htext⟩ :=
    Layout.toList_text (Nesting.run_eventsAll draft'.names draft'.trees [])
      (Tree.events_plain (Draft.names_sound hdraft) _ hunbroken) voidStyle
  rw [Tree.not_writes_iff] at hempty
  refine ⟨_, by rw [Document.render_eq, hevents]; rfl, ?_, ?_, ?_, ?_⟩
  · rw [htext]
    refine hout.not_infix _ ?_
    split
    · exact .inl rfl
    · exact .inr rfl
  · rw [htext]
    cases out with
    | nil => simp
    | cons c out => exact hout.head
  · rw [← hempty, ← String.toList_eq_nil_iff, htext]
    by_cases hnil : out = [] <;> simp [hnil]
  · by_cases hnil : out = []
    · refine .inl (String.toList_eq_nil_iff.1 (htext.trans ?_))
      rw [hnil]
      rfl
    · refine .inr ⟨String.ofList out, String.toList_inj.1 (htext.trans ?_), ?_⟩
      · rw [if_neg hnil, String.toList_append, String.toList_ofList]
        rfl
      · rw [String.toList_ofList]
        exact hout.last

theorem Recording.card_lines : ∃ draft : Draft String, card.MadeBy cardCalls ∧
    Draft.new.requestEach cardCalls = some draft ∧ Tree.allUnbroken draft.trees ∧
    ∃ d : Document, card.compile = .ok d ∧ ∀ voidStyle : VoidStyle, ∃ html : String,
      d.render ⟨.pretty, .lf, voidStyle⟩ = .ok html ∧ Tree.NeatlyWritten draft.trees html := by
  have hunbroken : (Draft.new.requestEach cardCalls).any fun draft : Draft String =>
      Tree.allUnbroken draft.trees := by
    decide +kernel
  obtain ⟨draft, hdraft, hunbroken⟩ := (Option.any_eq_true _ _).1 hunbroken
  exact ⟨draft, card_madeBy, hdraft, hunbroken, lines_of_madeBy card_madeBy hdraft hunbroken⟩

end HtmlTape
