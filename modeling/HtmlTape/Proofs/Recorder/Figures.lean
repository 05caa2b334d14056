import HtmlTape.Proofs.Pull.Counted
import HtmlTape.Proofs.Recorder.Aborted
import Mathlib.Data.List.DropRight

/-!
# What the figures of a recording count

A recorder counts a record when it records it, and keeps the count when it drops the record with an
aborted fragment (`Recorder.Drops` tells which records it has dropped).  So the figures of a
finished recording are the numbers of its records, raised by the numbers of the records that were
dropped since the document was begun (`Recording.figures_of_madeBy`).  Without an aborted fragment
they describe the document.

The records of all open levels and the dropped records are what the figures tell at any time
(`Recorder.Counted`), whatever the levels have claimed of each other: claims move entries, and no
records.
-/

namespace HtmlTape

/-! ### Figures -/

/-- The figures that are numbers of records. -/
inductive Figure where
  | elements
  | attributes
  | texts
  | fragments
deriving DecidableEq

def Counters.figure (c : Counters) : Figure → Nat
  | .elements => c.elements
  | .attributes => c.attributes
  | .texts => c.texts
  | .fragments => c.fragments

namespace Block

def figure? : Block → Option Figure
  | .element .. => some .elements
  | .leaf (.valued ..) | .leaf (.boolean _) => some .attributes
  | .leaf (.text _) | .leaf (.raw _) => some .texts
  | .leaf .doctype => none
  | .fragment _ => some .fragments

def recordsAll (blocks : List Block) : List Block := (placedAll 0 blocks).map Prod.snd

/-- How many of the records of blocks belong to a figure. -/
def census (figure : Figure) (blocks : List Block) : Nat :=
  (recordsAll blocks).countP fun b => b.figure? == some figure

theorem map_snd_placedAll (blocks : List Block) : ∀ offset : Nat,
    (placedAll offset blocks).map Prod.snd = recordsAll blocks := by
  have hshift : ∀ offset offset' : Nat,
      (placedAll offset blocks).map Prod.snd = (placedAll offset' blocks).map Prod.snd := by
    induction blocks using forest_induction with
    | nil => exact fun _ _ => rfl
    | cons b rest ih₁ ih₂ =>
      intro offset offset'
      simp only [placedAll_cons, List.map_append, List.map_cons]
      rw [ih₁ (offset + 3) (offset' + 3), ih₂ (offset + b.size) (offset' + b.size)]
  exact fun offset => hshift offset 0

theorem recordsAll_append (as bs : List Block) :
    recordsAll (as ++ bs) = recordsAll as ++ recordsAll bs := by
  rw [recordsAll, placedAll_append, List.map_append, map_snd_placedAll, map_snd_placedAll]

theorem recordsAll_singleton (b : Block) : recordsAll [b] = b :: recordsAll b.inner := by
  rw [recordsAll, placedAll_cons, placedAll, List.append_nil, List.map_cons, map_snd_placedAll]

variable {figure : Figure}

@[simp] theorem census_nil : census figure [] = 0 := rfl

@[simp] theorem census_append (as bs : List Block) :
    census figure (as ++ bs) = census figure as + census figure bs := by
  rw [census, recordsAll_append, List.countP_append]
  rfl

theorem census_singleton (b : Block) : census figure [b] =
    census figure b.inner + (b.figure? == some figure).toNat := by
  rw [census, recordsAll_singleton, List.countP_cons]
  cases b.figure? == some figure <;> rfl

theorem census_elements (blocks : List Block) :
    census .elements blocks = (placedAll 0 blocks).countP fun p => p.2.isElement := by
  rw [census, recordsAll, List.countP_map]
  apply List.countP_congr
  rintro ⟨o, b⟩ _
  cases b with
  | leaf l => cases l <;> simp [figure?, isElement]
  | element name inner refs => simp [figure?, isElement]
  | fragment refs => simp [figure?, isElement]

end Block

/-! ### Figures of open levels -/

/-- The rows of words are made of blocks, and the figures are the numbers of the records of these,
and of other blocks that stand aside. -/
def Tally (rows : List (Array Nat)) (figures : Figure → Nat) (aside : List Block) : Prop :=
  ∃ pages : List (List Block),
    rows = pages.map (fun blocks => (Block.wordsAll blocks).toArray) ∧
      ∀ figure, figures figure = Block.census figure pages.flatten + Block.census figure aside

namespace Tally

variable {row : Array Nat} {rows : List (Array Nat)} {figures figures' : Figure → Nat}
  {aside blocks : List Block}

theorem exists_blocks (h : Tally (row :: rows) figures aside) :
    ∃ blocks, row = (Block.wordsAll blocks).toArray := by
  obtain ⟨pages, hrows, _⟩ := h
  cases pages with
  | nil => cases hrows
  | cons blocks pages => exact ⟨blocks, (List.cons.inj hrows).1⟩

theorem enter (h : Tally rows figures aside) : Tally (#[] :: rows) figures aside := by
  obtain ⟨pages, hrows, hfigures⟩ := h
  exact ⟨[] :: pages, congrArg (List.cons #[]) hrows, hfigures⟩

/-- The innermost level is closed, and its blocks are put aside. -/
theorem leave (h : Tally (row :: rows) figures aside)
    (hblocks : row = (Block.wordsAll blocks).toArray) : Tally rows figures (aside ++ blocks) := by
  obtain ⟨pages, hrows, hfigures⟩ := h
  cases pages with
  | nil => cases hrows
  | cons page pages =>
    obtain ⟨hrow, hrows⟩ := List.cons.inj hrows
    obtain rfl : page = blocks :=
      Block.wordsAll_inj page (List.toArray_inj (hrow.symm.trans hblocks))
    refine ⟨pages, hrows, fun figure => ?_⟩
    rw [hfigures, List.flatten_cons, Block.census_append, Block.census_append]
    omega

/-- **The innermost level takes over further blocks.**  What is new of them is counted, and what was
put aside is counted already. -/
theorem absorb (h : Tally (row :: rows) figures (aside ++ blocks)) (new : List Block)
    (hnew : ∀ figure, figures' figure + Block.census figure blocks =
      figures figure + Block.census figure new) :
    Tally ((row ++ (Block.wordsAll new).toArray) :: rows) figures' aside := by
  obtain ⟨pages, hrows, hfigures⟩ := h
  cases pages with
  | nil => cases hrows
  | cons page pages =>
    obtain ⟨rfl, rfl⟩ := List.cons.inj hrows
    refine ⟨(page ++ new) :: pages, ?_, fun figure => ?_⟩
    · rw [List.map_cons, Block.wordsAll_append, List.append_toArray]
    · have hbefore := hfigures figure
      have hafter := hnew figure
      simp only [List.flatten_cons, Block.census_append] at hbefore ⊢
      omega

end Tally

theorem Call.eq_abortFragment_of_bare {E A : Type} {call : Call E A}
    (h : call.bare = .abortFragment) : call = .abortFragment := by
  cases call <;> first | rfl | cases h

namespace Recorder

variable {r r' : Recorder} {dropped : List Block}

/-- The figures are the numbers of the records of the open levels and of the dropped records. -/
def Counted (r : Recorder) (dropped : List Block) : Prop :=
  Tally (r.levels.map Level.words) r.counters.figure dropped

theorem counted_new : new.Counted [] := by
  refine ⟨[[]], rfl, fun figure => ?_⟩
  cases figure <;> rfl

/-! ### Calls that count -/

theorem figure_closeElement {o : Nat} (hr : r.closeElement = .ok (o, r')) (figure : Figure) :
    r'.counters.figure figure =
      r.counters.figure figure + (some Figure.elements == some figure).toNat := by
  obtain ⟨_, _, _, _, _, _, _, rfl⟩ := closeElement_result hr
  cases figure <;> rfl

theorem figure_endFragment {o : Nat} (hr : r.endFragment = .ok (o, r')) (figure : Figure) :
    r'.counters.figure figure =
      r.counters.figure figure + (some Figure.fragments == some figure).toNat := by
  obtain ⟨_, _, _, _, _, rfl⟩ := endFragment_result hr
  cases figure <;> rfl

theorem figure_finish {t : Recording} (hr : r.finish = .ok (t, r')) (figure : Figure) :
    t.counters.figure figure = r.counters.figure figure := by
  obtain ⟨_, _, _, rfl⟩ := finish_result hr
  cases figure <;> rfl

namespace Counted

theorem putLeaf (h : r.Counted dropped) (leaf : Literal → Leaf) (text : String)
    {counters : Counters} (hcounters : ∀ l figure, counters.figure figure =
      r.counters.figure figure + ((Block.leaf (leaf l)).figure? == some figure).toNat) :
    Counted { (r.putLeaf leaf text).2 with counters } dropped := by
  have hlevels : Tally (r.current.words :: r.outer.map Level.words) r.counters.figure
      (dropped ++ []) := (List.append_nil dropped).symm ▸ h
  show Tally ((r.current.putLeaf leaf text).words :: r.outer.map Level.words) _ _
  rw [r.current.putLeaf_eq_absorb]
  refine hlevels.absorb _ fun figure => ?_
  rw [Block.census_singleton, hcounters ⟨r.current.poolHere, text.utf8ByteSize⟩]
  simp [Block.inner]

theorem valuedAttribute (h : r.Counted dropped) {name : AttributeName} {value : String} {o : Nat}
    (hr : r.valuedAttribute name value = .ok (o, r')) : r'.Counted dropped := by
  obtain ⟨_, _, hr⟩ := of_bind_eq_ok hr
  cases hr
  refine h.putLeaf (.valued name) value fun l figure => ?_
  cases figure <;> rfl

theorem booleanAttribute (h : r.Counted dropped) {name : AttributeName} {o : Nat}
    (hr : r.booleanAttribute name = .ok (o, r')) : r'.Counted dropped := by
  obtain ⟨_, _, hr⟩ := of_bind_eq_ok hr
  cases hr
  refine h.putLeaf (fun _ => .boolean name) "" fun l figure => ?_
  cases figure <;> rfl

theorem enter (h : r.Counted dropped) (scope : Scope) (count : Nat) (entries : Array Entry) :
    (r.enter scope (r.current.split count).1 entries).Counted dropped := by
  obtain ⟨pages, hrows, hfigures⟩ := Tally.enter h
  refine ⟨pages, hrows, fun figure => ?_⟩
  rw [← hfigures]
  cases figure <;> rfl

theorem preparedAttributes (prepared : List PreparedAttribute) : ∀ {r : Recorder},
    r.Counted dropped →
      r.preparedAttributes prepared = .ok r' →
      r'.Counted dropped := by
  induction prepared with
  | nil =>
    intro r h hr
    cases hr
    exact h
  | cons p prepared ih =>
    intro r h hr
    rw [Recorder.preparedAttributes, List.foldlM_cons] at hr
    obtain ⟨s, hs, hr⟩ := of_bind_eq_ok hr
    obtain ⟨⟨o, s'⟩, hp, rfl⟩ := of_map_eq_ok hs
    exact ih (h.valuedAttribute hp) hr

theorem openElementWith (h : r.Counted dropped) {name : ElementName}
    {prepared : List PreparedAttribute} {args : List Token}
    (hr : r.openElementWith name prepared args = .ok r') : r'.Counted dropped := by
  obtain ⟨_, _, s, hfold, rfl⟩ := openElementWith_eq_ok hr
  have hs : s.Counted dropped := preparedAttributes prepared (h.enter (.element name) _ #[]) hfold
  exact hs

/-- An element that is closed is counted; the records inside of it have been counted already. -/
theorem closeElement (h : r.Counted dropped) {o : Nat} (hr : r.closeElement = .ok (o, r')) :
    r'.Counted dropped := by
  obtain ⟨name, parent, outer, _, houter, _, _, hcurrent, ho, _⟩ := closeElement_eq_ok hr
  rw [Counted, levels, houter] at h
  obtain ⟨blocks, hblocks⟩ := Tally.exists_blocks h
  rw [Level.elementWords_eq hblocks] at hcurrent
  rw [Counted, levels, hcurrent, ho]
  refine (Tally.leave h hblocks).absorb _ fun figure => ?_
  rw [figure_closeElement hr, Block.census_singleton]
  simp only [Block.inner, Block.figure?]
  omega

theorem endFragment (h : r.Counted dropped) {o : Nat} (hr : r.endFragment = .ok (o, r')) :
    r'.Counted dropped := by
  obtain ⟨parent, outer, _, houter, _, hcurrent, ho, _⟩ := endFragment_eq_ok hr
  rw [Counted, levels, houter] at h
  obtain ⟨blocks, hblocks⟩ := Tally.exists_blocks h
  rw [Level.fragmentWords_eq hblocks] at hcurrent
  rw [Counted, levels, hcurrent, ho]
  refine (Tally.leave h hblocks).absorb _ fun figure => ?_
  rw [figure_endFragment hr, Block.census_append, Block.census_singleton]
  simp only [Block.inner, Block.figure?, Block.census_nil]
  omega

/-- **An abort drops the records of the innermost level**, and they stay counted. -/
theorem abortFragment (h : r.Counted dropped) (hr : r.abortFragment = .ok r')
    {blocks : List Block} (hblocks : r.current.words = (Block.wordsAll blocks).toArray) :
    r'.Counted (dropped ++ blocks) := by
  obtain ⟨parent, outer, _, houter, rfl⟩ := abortFragment_eq_ok hr
  rw [Counted, levels, houter] at h
  exact Tally.leave h hblocks

/-- **Every call keeps the count**, apart from those that drop records or start over. -/
theorem step (h : r.Counted dropped) {call : Call ElementName AttributeName} {answer : Answer}
    (hr : r.step call = .ok (answer, r')) (hover : call.startsOver = false)
    (habort : call ≠ .abortFragment) : r'.Counted dropped := by
  cases call with
  | text value =>
    cases hr
    refine h.putLeaf .text value fun l figure => ?_
    cases figure <;> rfl
  | raw value =>
    cases hr
    refine h.putLeaf .raw value fun l figure => ?_
    cases figure <;> rfl
  | doctype =>
    cases hr
    exact h.putLeaf (fun _ => .doctype) "" fun l figure => rfl
  | valued name value =>
    obtain ⟨⟨o, s⟩, hs, he⟩ := of_map_eq_ok hr
    cases he
    exact h.valuedAttribute hs
  | boolean name =>
    obtain ⟨⟨o, s⟩, hs, he⟩ := of_map_eq_ok hr
    cases he
    exact h.booleanAttribute hs
  | openElement name =>
    obtain ⟨s, hs, he⟩ := of_map_eq_ok hr
    cases he
    obtain ⟨_, rfl⟩ := openElement_eq_ok hs
    exact h.enter (.element name) 0 #[]
  | openWith name prepared args =>
    obtain ⟨s, hs, he⟩ := of_map_eq_ok hr
    cases he
    exact h.openElementWith hs
  | adopt name count =>
    obtain ⟨s, hs, he⟩ := of_map_eq_ok hr
    cases he
    obtain ⟨_, _, rfl⟩ := adopt_eq_ok hs
    exact h.enter (.element name) count _
  | closeElement =>
    obtain ⟨⟨o, s⟩, hs, he⟩ := of_map_eq_ok hr
    cases he
    exact h.closeElement hs
  | beginFragment =>
    cases hr
    exact h.enter .fragment 0 #[]
  | fragment args =>
    obtain ⟨⟨o, s⟩, hs, he⟩ := of_map_eq_ok hr
    cases he
    obtain ⟨_, hs⟩ := fragment_eq_ok hs
    exact (h.enter .fragment _ _).endFragment hs
  | endFragment =>
    obtain ⟨⟨o, s⟩, hs, he⟩ := of_map_eq_ok hr
    cases he
    exact h.endFragment hs
  | nextId | internElement name | internAttribute name =>
    cases hr
    exact h
  | abortFragment => exact absurd rfl habort
  | finish | reset => cases hover

end Counted

/-! ### Courses -/

/-- The blocks that were recorded and dropped with aborted fragments since the document was begun,
when a recorder was given some requests.  Those are the blocks of each fragment as it was aborted:
what a fragment inside of it had dropped before is no longer among them. -/
inductive Drops : List SpelledCall → Recorder → List Block → Prop
  | new : Drops [] new []
  | keep {calls : List SpelledCall} {r r' : Recorder} {call : SpelledCall} {answer : Answer}
      {dropped : List Block} (before : Drops calls r dropped)
      (granted : r.request call = .ok (answer, r')) (goesOn : call.startsOver = false)
      (keeps : call ≠ .abortFragment) : Drops (calls ++ [call]) r' dropped
  | abort {calls : List SpelledCall} {r r' : Recorder} {answer : Answer}
      {dropped blocks : List Block} (before : Drops calls r dropped)
      (granted : r.request .abortFragment = .ok (answer, r'))
      (words : r.current.words = (Block.wordsAll blocks).toArray) :
      Drops (calls ++ [.abortFragment]) r' (dropped ++ blocks)
  | startOver {calls : List SpelledCall} {r r' : Recorder} {call : SpelledCall} {answer : Answer}
      {dropped : List Block} (before : Drops calls r dropped)
      (granted : r.request call = .ok (answer, r')) (starts : call.startsOver) :
      Drops (calls ++ [call]) r' []

/-- The requests since the last one that finished or reset a document. -/
def documentCalls (calls : List SpelledCall) : List SpelledCall :=
  calls.rtakeWhile fun call => !call.startsOver

/-- Nothing is dropped if no fragment is aborted. -/
theorem Drops.eq_nil {calls : List SpelledCall} (h : Drops calls r dropped)
    (habort : .abortFragment ∉ documentCalls calls) : dropped = [] := by
  induction h with
  | new => rfl
  | @keep calls r r' call answer dropped before granted goesOn keeps ih =>
    apply ih
    intro hmem
    apply habort
    rw [documentCalls, List.rtakeWhile_concat_pos _ _ _ (by rw [goesOn]; rfl)]
    exact List.mem_append_left _ hmem
  | abort before granted words ih =>
    refine absurd ?_ habort
    rw [documentCalls, List.rtakeWhile_concat_pos _ _ _ rfl]
    exact List.mem_append_right _ (List.mem_singleton_self _)
  | startOver => rfl

theorem request_startsOver {call : SpelledCall} {answer : Answer} (hover : call.startsOver)
    (hr : r.request call = .ok (answer, r')) : r' = new := by
  cases call with
  | finish =>
    obtain ⟨⟨t, s⟩, hs, he⟩ := of_map_eq_ok hr
    cases he
    obtain ⟨_, _, hnew, _⟩ := finish_eq_ok hs
    exact hnew
  | reset =>
    cases hr
    rfl
  | _ => cases hover

/-- **Every course of requests keeps the count.** -/
theorem Drops.counted {calls : List SpelledCall} (h : Drops calls r dropped) :
    r.Counted dropped := by
  induction h with
  | new => exact counted_new
  | @keep calls r r' call answer dropped before granted goesOn keeps ih =>
    obtain ⟨result, names, _, hrun⟩ := Lookup.call_local call r.names
    have hnames : Counted { r with names } dropped := ih
    have hlook := hrun r rfl
    rw [request, hlook] at granted
    cases result with
    | error e =>
      cases granted
      exact hnames
    | ok found =>
      refine hnames.step granted ((Lookup.startsOver_eq hlook).trans goesOn) ?_
      rintro rfl
      exact keeps (Call.eq_abortFragment_of_bare (Lookup.bare_eq hlook).symm)
  | @abort calls r r' answer dropped blocks before granted words ih =>
    obtain ⟨s, hs, he⟩ := of_map_eq_ok granted
    cases he
    exact ih.abortFragment hs words
  | startOver before granted starts ih =>
    rw [request_startsOver starts granted]
    exact counted_new

theorem Reaches.exists_drops {calls : List SpelledCall} (h : Reaches calls r) :
    ∃ dropped, Drops calls r dropped := by
  refine Reaches.induction (motive := fun calls r => ∃ dropped, Drops calls r dropped)
    ⟨[], .new⟩ ?_ h
  rintro calls r call answer r' ⟨dropped, hdrops⟩ hr
  by_cases hover : call.startsOver
  · exact ⟨[], .startOver hdrops hr hover⟩
  by_cases habort : call = .abortFragment
  · subst habort
    obtain ⟨blocks, hblocks⟩ := Tally.exists_blocks hdrops.counted
    exact ⟨_, .abort hdrops hr hblocks⟩
  · exact ⟨dropped, .keep hdrops hr (Bool.eq_false_iff.2 hover) habort⟩

end Recorder

/-! ### Finished recordings -/

namespace Recording

variable {t : Recording}

theorem Laid.figure_eq {blocks dropped : List Block} {refs : List Ref} {items : List (Item Quote)}
    (h : t.Laid blocks refs items) {r r' : Recorder} (hcounted : r.Counted dropped)
    (hfinish : r.finish = .ok (t, r')) (figure : Figure) : t.counters.figure figure =
      Block.census figure blocks + Block.census figure dropped := by
  obtain ⟨houter, _⟩ := Recorder.finish_eq_ok hfinish
  rw [Recorder.Counted, Recorder.levels, houter] at hcounted
  obtain ⟨pages, hrows, hfigures⟩ := hcounted
  obtain ⟨page, rfl, hpage⟩ := List.map_eq_singleton_iff.1 hrows.symm
  obtain ⟨rfl, _⟩ := h.of_finish hfinish hpage.symm
  rw [Recorder.figure_finish hfinish, hfigures, List.flatten_singleton]

/-- The figures of a recording that requests make tell its records, and those that were dropped with
an aborted fragment. -/
structure Tallied (t : Recording) (calls : List SpelledCall) (blocks dropped : List Block)
    (d : Document) (r r' : Recorder) : Prop where
  elements : d.countElements = .ok (Block.census .elements blocks)
  drops : Recorder.Drops calls r dropped
  finish : r.finish = .ok (t, r')
  figures : ∀ figure, t.counters.figure figure =
    Block.census figure blocks + Block.census figure dropped
  /-- Without an aborted fragment the figures describe the document. -/
  exact : .abortFragment ∉ Recorder.documentCalls calls →
    ∀ figure, t.counters.figure figure = Block.census figure blocks

/-- **What the figures of a finished recording count.**  The number of elements that a walk through
the document finds is that of the element records; and each figure is the number of its records,
raised by the number of such records that were dropped with an aborted fragment since the document
was begun.  If no fragment was aborted, the figures describe the document. -/
theorem figures_of_madeBy {calls : List SpelledCall} (h : t.MadeBy calls) :
    ∃ (blocks : List Block) (root : List Nat) (d : Document) (r r' : Recorder)
      (dropped : List Block),
      t.Formed blocks root ∧ t.compile = .ok d ∧ t.Tallied calls blocks dropped d r r' := by
  obtain ⟨draft, blocks, refs, _, _, _, hlaid⟩ := h.laid
  obtain ⟨branches, hgrown, hnodes, hcode⟩ := hlaid.exists_branches
  have howned := hlaid.owned h
  obtain ⟨r, r', hreach, hfinish⟩ := h
  obtain ⟨dropped, hdrops⟩ := hreach.exists_drops
  have hfigures := hlaid.figure_eq hdrops.counted hfinish
  have hspells : Document.Spells ⟨_, t.pool, t.names⟩ (Item.treesAll draft.current.items) :=
    ⟨rfl, hlaid.soundAll hlaid.shows⟩
  refine ⟨blocks, refs.map Ref.record, _, r, r', dropped, hlaid.formed, hlaid.compile, ?_, hdrops,
    hfinish, hfigures, fun habort figure => ?_⟩
  · rw [hspells.countElements, ← hcode, hlaid.formed.countP_isStartTag howned hgrown hnodes,
      Block.census_elements]
  · rw [hfigures, hdrops.eq_nil habort]
    rfl

theorem card_figures : card.MadeBy cardCalls ∧
    ∃ (blocks : List Block) (root : List Nat) (d : Document) (r r' : Recorder)
      (dropped : List Block),
      card.Formed blocks root ∧ card.compile = .ok d ∧
      card.Tallied cardCalls blocks dropped d r r' :=
  ⟨card_madeBy, figures_of_madeBy card_madeBy⟩

/-! ### A text that is withdrawn -/

/-- A fragment with a text is begun and aborted. -/
def withdrawnCalls : List SpelledCall :=
  [.beginFragment, .text "x", .abortFragment]

def withdrawn : Recording where
  words := #[248, 0]
  pool := ""
  names := Names.standard
  root := 0
  counters := ⟨0, 0, 1, 0, 0, 1⟩

/-- **A text that was withdrawn is still counted**, though the recording has no record of a text. -/
theorem withdrawn_texts : withdrawn.MadeBy withdrawnCalls ∧
    ∀ (blocks : List Block) (root : List Nat), withdrawn.Formed blocks root →
      withdrawn.counters.figure .texts ≠ Block.census .texts blocks := by
  refine ⟨by decide +kernel, fun blocks root hformed => ?_⟩
  have hsize : 0 = Block.sizeAll blocks := hformed.root
  cases blocks with
  | nil => decide
  | cons b rest =>
    have := b.size_pos
    rw [Block.sizeAll_cons] at hsize
    omega

end Recording

end HtmlTape
