import HtmlTape.Proofs.Recorder.Checks
import HtmlTape.Proofs.Recorder.Finished
import HtmlTape.Proofs.Recorder.Roll
import HtmlTape.Proofs.Tape.Owned

/-!
# Every record has one owner

While a document is recorded, a record that is no fragment has one owner at any time: the element
whose references lead to it, or the open level that has an entry for it.  So the offsets of the
records are the references of the elements and of the entries, each as often as any other
(`Recorder.Balanced`).

The books are kept level by level (`Level.Balanced`).  What a level was given by the level around it
when it was opened is *taken* in its own books and *given* in those of the level around it.  A level
that is begun as a fragment takes nothing; so when it is aborted, the books of the levels around it
are right without it.
-/

namespace HtmlTape

def Entry.recordsAll (entries : List Entry) : List Nat :=
  (entries.flatMap Entry.refs).map Ref.record

/-- The level is made of the blocks.  Their records and what was taken from the level around it are
owned by the elements, by the entries of the level, and by the level inside of it that was given
some. -/
structure Level.Balanced (level : Level) (blocks : List Block) (taken given : List Nat) :
    Prop where
  words : level.words = (Block.wordsAll blocks).toArray
  balance : (Block.offsets level.inner blocks ++ taken).Perm
    (Block.ownedAll level.inner blocks ++ Entry.recordsAll level.entries.toList ++ given)

theorem Entry.recordsAll_append (as bs : List Entry) :
    recordsAll (as ++ bs) = recordsAll as ++ recordsAll bs := by
  rw [recordsAll, List.flatMap_append, List.map_append]
  rfl

theorem Entry.recordsAll_singleton (entry : Entry) :
    recordsAll [entry] = entry.refs.map Ref.record := by
  rw [recordsAll, List.flatMap_cons, List.flatMap_nil, List.append_nil]

namespace Level.Balanced

variable {level parent : Level} {blocks placed : List Block}
  {taken given given' before : List Nat}

theorem here_eq (h : level.Balanced blocks taken given) :
    level.here = level.inner + Block.sizeAll blocks := by
  rw [here, h.words, List.size_toArray]
  rfl

/-- A level that is opened has nothing but what it is given. -/
theorem blank (scope : Scope) (start poolStart : Nat) :
    (Level.mk scope start poolStart #[] "" #[]).Balanced [] given given :=
  ⟨rfl, .refl _⟩

/-- **A level takes over further blocks**, with an entry for them. -/
theorem absorb (h : level.Balanced blocks taken given) (new : List Block) (pool : String)
    (entry : Entry) (hnew : (Block.offsets level.here new ++ given).Perm
      (Block.ownedAll level.here new ++ entry.refs.map Ref.record ++ given')) :
    (level.absorb (Block.wordsAll new).toArray pool entry).Balanced (blocks ++ new) taken
      given' := by
  refine ⟨?_, ?_⟩
  · rw [Level.absorb, h.words, List.append_toArray, Block.wordsAll_append]
  · show (Block.offsets level.inner _ ++ taken).Perm (Block.ownedAll level.inner _ ++
      Entry.recordsAll (level.entries.push entry).toList ++ given')
    rw [Array.toList_push, Entry.recordsAll_append, Entry.recordsAll_singleton,
      Block.offsets_append, Block.ownedAll_append, ← h.here_eq]
    refine List.perm_iff_count.2 fun o => ?_
    have hbefore := h.balance.count_eq o
    have hafter := hnew.count_eq o
    simp only [List.count_append] at hbefore hafter ⊢
    omega

theorem putLeaf (h : level.Balanced blocks taken given) (leaf : Literal → Leaf) (text : String) :
    (level.putLeaf leaf text).Balanced
      (blocks ++ [.leaf (leaf ⟨level.poolHere, text.utf8ByteSize⟩)]) taken given := by
  rw [level.putLeaf_eq_absorb]
  exact h.absorb _ text _ (.refl _)

theorem split (h : level.Balanced blocks taken []) (count : Nat) :
    (level.split count).1.Balanced blocks taken
      (Entry.recordsAll (level.split count).2.toList) := by
  refine ⟨h.words, ?_⟩
  have hentries : Entry.recordsAll level.entries.toList =
      Entry.recordsAll (level.split count).1.entries.toList ++
        Entry.recordsAll (level.split count).2.toList := by
    rw [← Entry.recordsAll_append, (level.toList_split count).1, (level.toList_split count).2,
      List.take_append_drop]
  have hbalance := h.balance
  rw [hentries, List.append_nil, ← List.append_assoc] at hbalance
  exact hbalance

theorem extend {entries : Array Entry}
    (h : level.Balanced blocks taken (Entry.recordsAll entries.toList)) :
    ({ level with entries := level.entries ++ entries } : Level).Balanced blocks taken [] := by
  refine ⟨h.words, ?_⟩
  show (Block.offsets level.inner blocks ++ taken).Perm (Block.ownedAll level.inner blocks ++
    Entry.recordsAll (level.entries ++ entries).toList ++ [])
  rw [Array.toList_append, Entry.recordsAll_append, List.append_nil, ← List.append_assoc]
  exact h.balance

/-- An element is closed: it owns what its level had entries for. -/
theorem closeElement (hp : parent.Balanced placed before taken)
    (h : level.Balanced blocks taken []) (hstart : level.start = parent.here)
    {name : ElementName} (hs : level.scope = .element name) :
    (parent.absorb (Recorder.elementWords name level.words level.refs) level.pool
      (.single level.start false)).Balanced
        (placed ++ [.element name blocks (level.refs.map Ref.record)]) before [] := by
  have hinner : level.inner = parent.here + 3 := by
    rw [inner, hs, hstart]
    rfl
  have hbalance := h.balance
  rw [hinner] at hbalance
  rw [elementWords_eq h.words]
  refine hp.absorb _ level.pool _ (List.perm_iff_count.2 fun o => ?_)
  have hcount := hbalance.count_eq o
  rw [Block.offsets_element, Block.ownedAll_element, Entry.single, hstart]
  simp only [List.count_append, List.map_cons, List.map_nil] at hcount ⊢
  have hrefs : Entry.recordsAll level.entries.toList = level.refs.map Ref.record := rfl
  rw [hrefs] at hcount
  omega

/-- A fragment is ended: its owner gets what its level had entries for. -/
theorem endFragment (hp : parent.Balanced placed before taken)
    (h : level.Balanced blocks taken []) (hstart : level.start = parent.here)
    (hs : level.scope = .fragment) :
    (parent.absorb (level.words ++ #[Tag.fragment.word, level.refs.length] ++
        Recorder.refWords level.refs) level.pool ⟨level.here, level.refs⟩).Balanced
      (placed ++ (blocks ++ [.fragment (level.refs.map Ref.record)])) before [] := by
  have hinner : level.inner = parent.here := by
    rw [inner, hs, hstart]
    rfl
  have hbalance := h.balance
  rw [hinner] at hbalance
  rw [fragmentWords_eq h.words]
  refine hp.absorb _ level.pool ⟨level.here, level.refs⟩ ?_
  rw [Block.offsets_append, Block.ownedAll_append, Block.offsets_fragment,
    Block.ownedAll_fragment, List.append_nil, List.append_nil (Block.ownedAll _ _)]
  exact hbalance

end Level.Balanced

/-! ### Stacks of levels -/

/-- The books of the levels, the innermost of them first, and what it has given away. -/
inductive Books : List Level → List Nat → Prop
  | nil : Books [] []
  | cons {level : Level} {outer : List Level} {blocks : List Block} {taken given : List Nat}
      (below : Books outer taken) (start : level.start = Level.hereOf outer)
      (fragment : level.scope = .fragment → taken = [])
      (balanced : level.Balanced blocks taken given) : Books (level :: outer) given

namespace Books

variable {level parent : Level} {outer : List Level} {given : List Nat}

theorem putLeaf (h : Books (level :: outer) given) (leaf : Literal → Leaf) (text : String) :
    Books (level.putLeaf leaf text :: outer) given := by
  cases h with
  | cons below start fragment balanced =>
    exact .cons below start fragment (balanced.putLeaf leaf text)

theorem split (h : Books (level :: outer) []) (count : Nat) :
    Books ((level.split count).1 :: outer) (Entry.recordsAll (level.split count).2.toList) := by
  cases h with
  | cons below start fragment balanced =>
    exact .cons below start fragment (balanced.split count)

/-- A level is opened for what was given away.  A fragment that is begun is given nothing. -/
theorem enter (h : Books (level :: outer) given) {scope : Scope}
    (hfragment : scope = .fragment → given = []) :
    Books (⟨scope, level.here, level.poolHere, #[], "", #[]⟩ :: level :: outer) given :=
  .cons h rfl hfragment (.blank scope level.here level.poolHere)

theorem extend {entries : Array Entry}
    (h : Books (level :: outer) (Entry.recordsAll entries.toList)) :
    Books ({ level with entries := level.entries ++ entries } :: outer) [] := by
  cases h with
  | cons below start fragment balanced => exact .cons below start fragment balanced.extend

theorem closeElement (h : Books (level :: parent :: outer) []) {name : ElementName}
    (hs : level.scope = .element name) :
    Books (parent.absorb (Recorder.elementWords name level.words level.refs) level.pool
      (.single level.start false) :: outer) [] := by
  cases h with
  | cons below start fragment balanced =>
    cases below with
    | cons below' start' fragment' balanced' =>
      exact .cons below' start' fragment' (balanced'.closeElement balanced start hs)

theorem endFragment (h : Books (level :: parent :: outer) []) (hs : level.scope = .fragment) :
    Books (parent.absorb (level.words ++ #[Tag.fragment.word, level.refs.length] ++
      Recorder.refWords level.refs) level.pool ⟨level.here, level.refs⟩ :: outer) [] := by
  cases h with
  | cons below start fragment balanced =>
    cases below with
    | cons below' start' fragment' balanced' =>
      exact .cons below' start' fragment' (balanced'.endFragment balanced start hs)

/-- **Dropping a fragment leaves the books right**, for it has taken nothing. -/
theorem abortFragment (h : Books (level :: parent :: outer) []) (hs : level.scope = .fragment) :
    Books (parent :: outer) [] := by
  cases h with
  | cons below start fragment balanced =>
    rw [fragment hs] at below
    exact below

/-- Prepared attributes are recorded on a level before it gets entries for what it was given. -/
theorem putAttributes (prepared : List PreparedAttribute) :
    ∀ {level : Level}, Books (level :: outer) given →
      Books (level.putAttributes prepared :: outer) given := by
  induction prepared with
  | nil => exact fun h => h
  | cons p prepared ih => exact fun h => ih (h.putLeaf (.valued p.name) p.value)

end Books

/-! ### Recorders -/

namespace Recorder

def Balanced (r : Recorder) : Prop := Books (r.current :: r.outer) []

theorem balanced_new : new.Balanced :=
  .cons .nil rfl (fun _ => rfl) (.blank .root 0 0)

variable {r r' : Recorder}

namespace Balanced

theorem congr (h : r.Balanced) (hc : r'.current = r.current) (ho : r'.outer = r.outer) :
    r'.Balanced := by
  rw [Balanced, hc, ho]
  exact h

theorem putLeaf (h : r.Balanced) (leaf : Literal → Leaf) (text : String) :
    (r.putLeaf leaf text).2.Balanced :=
  Books.putLeaf h leaf text

theorem valuedAttribute (h : r.Balanced) {name : AttributeName} {value : String} {o : Nat}
    (hr : r.valuedAttribute name value = .ok (o, r')) : r'.Balanced := by
  obtain ⟨_, _, hr⟩ := of_bind_eq_ok hr
  cases hr
  have hc : r.countAttribute.Balanced := h.congr rfl rfl
  exact hc.putLeaf _ _

theorem booleanAttribute (h : r.Balanced) {name : AttributeName} {o : Nat}
    (hr : r.booleanAttribute name = .ok (o, r')) : r'.Balanced := by
  obtain ⟨_, _, hr⟩ := of_bind_eq_ok hr
  cases hr
  have hc : r.countAttribute.Balanced := h.congr rfl rfl
  exact hc.putLeaf _ _

theorem enterEmpty (h : r.Balanced) (scope : Scope) :
    (r.enter scope r.current #[]).Balanced :=
  Books.enter h fun _ => rfl

theorem enterWith (h : r.Balanced) (name : ElementName) (count : Nat)
    (prepared : List PreparedAttribute)
    (hr : (r.enter (.element name) (r.current.split count).1 #[]).preparedAttributes prepared =
      .ok r') :
    Balanced { r' with current := { r'.current with
      entries := r'.current.entries ++ (r.current.split count).2 } } := by
  have hscope : Scope.element name = .fragment →
      Entry.recordsAll (r.current.split count).2.toList = [] := by
    intro hs
    cases hs
  obtain ⟨_, rfl⟩ := preparedAttributes_eq_ok prepared hr
  have henter := (Books.split h count).enter hscope
  exact (henter.putAttributes prepared).extend

theorem openElementWith (h : r.Balanced) {name : ElementName} {prepared : List PreparedAttribute}
    {args : List Token} (hr : r.openElementWith name prepared args = .ok r') : r'.Balanced := by
  obtain ⟨_, _, s, hfold, rfl⟩ := openElementWith_eq_ok hr
  exact h.enterWith name _ prepared hfold

theorem adopt (h : r.Balanced) {name : ElementName} {count : Nat}
    (hr : r.adopt name count = .ok r') : r'.Balanced := by
  obtain ⟨_, _, rfl⟩ := adopt_eq_ok hr
  have hwith := h.enterWith name count [] rfl
  rwa [Recorder.enter, Array.empty_append] at hwith

theorem closeElement (h : r.Balanced) {o : Nat} (hr : r.closeElement = .ok (o, r')) :
    r'.Balanced := by
  obtain ⟨name, parent, outer, hscope, houter, _, _, hcurrent, ho, _⟩ := closeElement_eq_ok hr
  rw [Balanced, houter] at h
  rw [Balanced, hcurrent, ho]
  exact h.closeElement hscope

theorem endFragment (h : r.Balanced) {o : Nat} (hr : r.endFragment = .ok (o, r')) :
    r'.Balanced := by
  obtain ⟨parent, outer, hscope, houter, _, hcurrent, ho, _⟩ := endFragment_eq_ok hr
  rw [Balanced, houter] at h
  rw [Balanced, hcurrent, ho]
  exact h.endFragment hscope

/-- A fragment of claimed entries takes them for a moment only, so its level is no begun one. -/
theorem fragment (h : r.Balanced) {args : List Token} {o : Nat}
    (hr : r.fragment args = .ok (o, r')) : r'.Balanced := by
  obtain ⟨_, hr⟩ := fragment_eq_ok hr
  obtain ⟨parent, outer, _, houter, _, hcurrent, ho, _⟩ := endFragment_eq_ok hr
  cases houter
  rw [Balanced, hcurrent, ho]
  cases Books.split h (Draft.claimed args) with
  | cons below start fragment balanced =>
    have hblank : (Level.mk .fragment (r.current.split (Draft.claimed args)).1.here
        (r.current.split (Draft.claimed args)).1.poolHere #[] "" #[]).Balanced []
          (Entry.recordsAll (r.current.split (Draft.claimed args)).2.toList)
          (Entry.recordsAll (r.current.split (Draft.claimed args)).2.toList) := .blank ..
    have hlevel := hblank.extend
    rw [Array.empty_append] at hlevel
    exact .cons below start fragment (balanced.endFragment hlevel rfl rfl)

theorem abortFragment (h : r.Balanced) (hr : r.abortFragment = .ok r') : r'.Balanced := by
  obtain ⟨parent, outer, hscope, houter, rfl⟩ := abortFragment_eq_ok hr
  rw [Balanced, houter] at h
  exact h.abortFragment hscope

/-! ### Courses -/

/-- **Every call keeps the books balanced.** -/
theorem step (h : r.Balanced) {call : Call ElementName AttributeName} {answer : Answer}
    (hr : r.step call = .ok (answer, r')) : r'.Balanced := by
  have htext : r.countText.Balanced := h.congr rfl rfl
  cases call with
  | text value =>
    cases hr
    exact htext.putLeaf .text value
  | raw value =>
    cases hr
    exact htext.putLeaf .raw value
  | doctype =>
    cases hr
    exact h.putLeaf (fun _ => .doctype) ""
  | valued name value =>
    obtain ⟨⟨o, s⟩, hs, he⟩ := of_map_eq_ok hr
    cases he
    exact h.valuedAttribute hs
  | boolean name =>
    obtain ⟨⟨o, s⟩, hs, he⟩ := of_map_eq_ok hr
    cases he
    exact h.booleanAttribute hs
  | openElement name =>
    obtain ⟨s, hs, he⟩ := of_map_eq_ok hr
    cases he
    obtain ⟨_, rfl⟩ := openElement_eq_ok hs
    exact h.enterEmpty (.element name)
  | openWith name prepared args =>
    obtain ⟨s, hs, he⟩ := of_map_eq_ok hr
    cases he
    exact h.openElementWith hs
  | adopt name count =>
    obtain ⟨s, hs, he⟩ := of_map_eq_ok hr
    cases he
    exact h.adopt hs
  | closeElement =>
    obtain ⟨⟨o, s⟩, hs, he⟩ := of_map_eq_ok hr
    cases he
    exact h.closeElement hs
  | beginFragment =>
    cases hr
    exact h.enterEmpty .fragment
  | fragment args =>
    obtain ⟨⟨o, s⟩, hs, he⟩ := of_map_eq_ok hr
    cases he
    exact h.fragment hs
  | endFragment =>
    obtain ⟨⟨o, s⟩, hs, he⟩ := of_map_eq_ok hr
    cases he
    exact h.endFragment hs
  | abortFragment =>
    obtain ⟨s, hs, he⟩ := of_map_eq_ok hr
    cases he
    exact h.abortFragment hs
  | finish =>
    obtain ⟨⟨t, s⟩, hs, he⟩ := of_map_eq_ok hr
    cases he
    obtain ⟨_, _, rfl, _⟩ := finish_eq_ok hs
    exact balanced_new
  | reset =>
    cases hr
    exact balanced_new
  | nextId =>
    cases hr
    exact h.congr rfl rfl
  | internElement name | internAttribute name =>
    cases hr
    exact h

theorem request (h : r.Balanced) {call : SpelledCall} {answer : Answer}
    (hr : r.request call = .ok (answer, r')) : r'.Balanced := by
  obtain ⟨result, names, _, hrun⟩ := Lookup.call_local call r.names
  have hnames : Balanced { r with names } := h.congr rfl rfl
  rw [Recorder.request, hrun r rfl] at hr
  cases result with
  | error e =>
    cases hr
    exact hnames
  | ok call => exact hnames.step hr

end Balanced

/-- **The books are balanced after every course of requests.** -/
theorem Reaches.balanced {calls : List SpelledCall} (h : Reaches calls r) : r.Balanced :=
  Reaches.induction (motive := fun _ r => r.Balanced) balanced_new
    (fun _ _ _ _ _ hbalanced hr => hbalanced.request hr) h

end Recorder

/-! ### Finished recordings -/

theorem Books.outermost {level : Level} (h : Books [level] []) (hs : level.scope = .root) :
    ∃ blocks, level.words = (Block.wordsAll blocks).toArray ∧
      (Block.offsets 0 blocks).Perm (Block.ownedAll 0 blocks ++ level.refs.map Ref.record) := by
  cases h with
  | cons below start fragment balanced =>
    cases below with
    | nil =>
      have hinner : level.inner = 0 := by
        rw [Level.inner, hs, start]
        rfl
      have hbalance := balanced.balance
      rw [List.append_nil, List.append_nil, hinner] at hbalance
      exact ⟨_, balanced.words, hbalance⟩

/-- The blocks of a finished recording are those of the level that was left when it was finished, and
the references of the root are those of this level. -/
theorem Recording.Laid.of_finish {t : Recording} {blocks blocks' : List Block} {refs : List Ref}
    {items : List (Item Quote)} (h : t.Laid blocks refs items) {r r' : Recorder}
    (hfinish : r.finish = .ok (t, r'))
    (hblocks : r.current.words = (Block.wordsAll blocks').toArray) :
    blocks = blocks' ∧ refs.map Ref.record = r.current.refs.map Ref.record := by
  obtain ⟨_, _, _, hwords, _, _, hroot⟩ := Recorder.finish_eq_ok hfinish
  have hsize : (Block.wordsAll blocks).length = (Block.wordsAll blocks').length := by
    have hsizes : Block.sizeAll blocks = r.current.words.size := h.root.symm.trans hroot
    rw [hblocks, List.size_toArray] at hsizes
    exact hsizes
  have hsame : Block.wordsAll blocks ++ ([Tag.root.word, refs.length] ++ refs.map Ref.record) =
      Block.wordsAll blocks' ++ ([Tag.root.word, r.current.refs.length] ++
        r.current.refs.map Ref.record) := by
    rw [← List.append_assoc, ← List.append_assoc]
    refine List.toArray_inj ?_
    rw [← h.words, hwords, hblocks, Recorder.refWords]
    simp
  obtain ⟨hall, hrest⟩ := List.append_inj hsame hsize
  exact ⟨Block.wordsAll_inj blocks hall, List.append_inj_right hrest rfl⟩

/-- **Every record of a finished recording has one owner.**  The offsets of the records that are no
fragments are the references of the elements and of the root, each once. -/
theorem Recording.Laid.owned {t : Recording} {blocks : List Block} {refs : List Ref}
    {items : List (Item Quote)} (h : t.Laid blocks refs items) {calls : List SpelledCall}
    (hmade : t.MadeBy calls) :
    (Block.offsets 0 blocks).Perm (Block.ownedAll 0 blocks ++ refs.map Ref.record) := by
  obtain ⟨r, r', hreach, hfinish⟩ := hmade
  obtain ⟨houter, _⟩ := Recorder.finish_eq_ok hfinish
  obtain ⟨draft, hm, _⟩ := hreach.mirrors
  have hscope : r.current.scope = .root := hm.scope_eq_root_iff.2 houter
  have hbooks := hreach.balanced
  rw [Recorder.Balanced, houter] at hbooks
  obtain ⟨blocks', hblocks, hperm⟩ := hbooks.outermost hscope
  -- the books and the layout tell the same words, so they are about the same blocks
  obtain ⟨rfl, hrefs⟩ := h.of_finish hfinish hblocks
  rw [hrefs]
  exact hperm

end HtmlTape
