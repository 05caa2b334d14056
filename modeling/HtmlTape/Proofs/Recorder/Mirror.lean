import HtmlTape.Proofs.Recorder.Holds
import HtmlTape.Proofs.Recorder.Placed

/-!
# Recorders and drafts

A recorder mirrors a draft if its levels hold the levels of the draft, one for one.  Each call
that a recorder answers is followed by the draft (`Mirrors.step`), and so is a whole course of
requests (`Reaches.mirrors`): what a new recorder was told is what its levels hold.
-/

namespace HtmlTape

theorem Level.poolHere_putLeaf (level : Level) (leaf : Literal → Leaf) (text : String) :
    (level.putLeaf leaf text).poolHere = level.poolHere + text.utf8ByteSize := by
  rw [Level.poolHere, Level.poolHere, Nat.add_assoc, ← String.utf8ByteSize_append]
  rfl

theorem Level.split_zero (level : Level) : level.split 0 = (level, #[]) := by
  rw [split]
  simp

theorem Level.toList_split (level : Level) (count : Nat) :
    (level.split count).1.entries.toList =
        level.entries.toList.take (level.entries.toList.length - count) ∧
      (level.split count).2.toList =
        level.entries.toList.drop (level.entries.toList.length - count) := by
  rw [Array.length_toList]
  constructor
  · show (level.entries.extract 0 _).toList = _
    rw [Array.toList_extract, List.extract_eq_take_drop, List.drop_zero, Nat.sub_zero]
  · show (level.entries.extract _ level.entries.size).toList = _
    rw [Array.toList_extract, List.extract_eq_take_drop, List.take_of_length_le]
    exact Nat.le_of_eq (by rw [List.length_drop, Array.length_toList])

def Level.putAttributes (level : Level) (prepared : List PreparedAttribute) : Level :=
  prepared.foldl (fun level p => level.putLeaf (.valued p.name) p.value) level

theorem Level.scope_putAttributes (level : Level) (prepared : List PreparedAttribute) :
    (level.putAttributes prepared).scope = level.scope := by
  induction prepared generalizing level with
  | nil => rfl
  | cons p prepared ih => exact ih (level.putLeaf (.valued p.name) p.value)

theorem Level.size_putAttributes (level : Level) (prepared : List PreparedAttribute) :
    (level.putAttributes prepared).entries.size = level.entries.size + prepared.length := by
  induction prepared generalizing level with
  | nil => rfl
  | cons p prepared ih =>
    have hrest := ih (level.putLeaf (.valued p.name) p.value)
    rw [Level.putLeaf, Array.size_push] at hrest
    rw [List.length_cons, Nat.add_comm prepared.length, ← Nat.add_assoc]
    exact hrest

namespace Recorder

variable {r r' : Recorder}

/-! ### What granted calls do -/

/-- Prepared attributes are recorded on the innermost level, one after another. -/
theorem preparedAttributes_eq_ok (prepared : List PreparedAttribute) : ∀ {r r' : Recorder},
    r.preparedAttributes prepared = .ok r' →
      (∀ p ∈ prepared, (r.names.attributeText? p.name).isSome) ∧
        r' = { r with
          current := r.current.putAttributes prepared
          counters := { r.counters with
            attributes := r.counters.attributes + prepared.length } } := by
  induction prepared with
  | nil =>
    intro r r' hr
    cases hr
    exact ⟨fun _ hp => (nomatch hp), rfl⟩
  | cons p prepared ih =>
    intro r r' hr
    rw [preparedAttributes, List.foldlM_cons] at hr
    obtain ⟨s, hs, hr⟩ := of_bind_eq_ok hr
    obtain ⟨⟨o, s'⟩, hp, rfl⟩ := of_map_eq_ok hs
    obtain ⟨_, hname, hp⟩ := of_bind_eq_ok hp
    cases hp
    obtain ⟨hnames, rfl⟩ := ih hr
    refine ⟨List.forall_mem_cons.2 ⟨Names.isSome_of_attributeText hname, hnames⟩, ?_⟩
    rw [List.length_cons, Nat.add_comm prepared.length, ← Nat.add_assoc]
    rfl

theorem claim_eq_ok {level rest : Level} {args : List Token} {claimed : Array Entry}
    (h : level.claim args = .ok (rest, claimed)) :
    Draft.claimed args ≤ level.entries.size ∧
      (rest, claimed) = level.split (Draft.claimed args) := by
  rw [Level.claim] at h
  by_cases hlt : level.entries.size < (args.filterMap Token.record?).length
  · simp only [if_pos hlt] at h
    cases h
  · simp only [if_neg hlt] at h
    split at h
    · cases h
    · cases h
      exact ⟨Nat.le_of_not_lt hlt, rfl⟩

theorem openElement_eq_ok {name : ElementName} (hr : r.openElement name = .ok r') :
    (r.names.elementText? name).isSome ∧ r' = r.enter (.element name) r.current #[] := by
  obtain ⟨_, hname, hr⟩ := of_bind_eq_ok hr
  cases hr
  exact ⟨Names.isSome_of_elementText hname, rfl⟩

/-- An element that is opened gets prepared attributes first, and the claimed entries after them. -/
theorem openElementWith_eq_ok {name : ElementName} {prepared : List PreparedAttribute}
    {args : List Token} (hr : r.openElementWith name prepared args = .ok r') :
    Draft.claimed args ≤ r.current.entries.size ∧ (r.names.elementText? name).isSome ∧
      ∃ s, (r.enter (.element name) (r.current.split (Draft.claimed args)).1 #[]).preparedAttributes
          prepared = .ok s ∧
        r' = { s with current := { s.current with
          entries := s.current.entries ++ (r.current.split (Draft.claimed args)).2 } } := by
  obtain ⟨⟨rest, entries⟩, hclaim, hr⟩ := of_bind_eq_ok hr
  obtain ⟨hle, hsplit⟩ := claim_eq_ok hclaim
  obtain ⟨inner, hinner, hr⟩ := of_bind_eq_ok hr
  obtain ⟨_, hname, hinner⟩ := of_bind_eq_ok hinner
  cases hinner
  obtain ⟨s, hfold, hr⟩ := of_bind_eq_ok hr
  cases hr
  cases hsplit
  exact ⟨hle, Names.isSome_of_elementText hname, s, hfold, rfl⟩

theorem adopt_eq_ok {name : ElementName} {count : Nat} (hr : r.adopt name count = .ok r') :
    count ≤ r.current.entries.size ∧ (r.names.elementText? name).isSome ∧
      r' = r.enter (.element name) (r.current.split count).1 (r.current.split count).2 := by
  obtain ⟨⟨rest, entries⟩, hadopt, hr⟩ := of_bind_eq_ok hr
  obtain ⟨_, hname, hr⟩ := of_bind_eq_ok hr
  cases hr
  rw [Level.adopt] at hadopt
  by_cases hlt : r.current.entries.size < count
  · rw [if_pos hlt] at hadopt
    cases hadopt
  · rw [if_neg hlt] at hadopt
    cases hadopt
    exact ⟨Nat.le_of_not_lt hlt, Names.isSome_of_elementText hname, rfl⟩

theorem closeElement_result {o : Nat} (hr : r.closeElement = .ok (o, r')) :
    ∃ name parent outer, r.current.scope = .element name ∧ r.outer = parent :: outer ∧
      (name.kind.isVoid → ∀ ref ∈ r.current.refs, ref.isAttribute) ∧ o = r.current.start ∧
      r' = { r.countSplices r.current.refs with
        current := parent.absorb (elementWords name r.current.words r.current.refs)
          r.current.pool (.single r.current.start false)
        outer
        counters := { (r.countSplices r.current.refs).counters with
          elements := r.counters.elements + 1 } } := by
  rw [closeElement] at hr
  split at hr
  case h_2 => cases hr
  case h_1 _ _ name parent outer hscope houter =>
    by_cases hv : name.kind.isVoid ∧ r.current.refs.any (!·.isAttribute)
    · rw [if_pos hv] at hr
      obtain ⟨_, _, hr⟩ := of_bind_eq_ok hr
      cases hr
    · rw [if_neg hv] at hr
      cases hr
      refine ⟨name, parent, outer, hscope, houter, ?_, rfl, rfl⟩
      intro hvoid ref href
      by_contra hattr
      exact hv ⟨hvoid, List.any_eq_true.2 ⟨ref, href, by simpa using hattr⟩⟩

theorem closeElement_eq_ok {o : Nat} (hr : r.closeElement = .ok (o, r')) :
    ∃ name parent outer, r.current.scope = .element name ∧ r.outer = parent :: outer ∧
      (name.kind.isVoid → ∀ ref ∈ r.current.refs, ref.isAttribute) ∧ o = r.current.start ∧
      r'.current = parent.absorb (elementWords name r.current.words r.current.refs)
        r.current.pool (.single r.current.start false) ∧
      r'.outer = outer ∧ r'.names = r.names := by
  obtain ⟨name, parent, outer, hscope, houter, hvoid, rfl, rfl⟩ := closeElement_result hr
  exact ⟨name, parent, outer, hscope, houter, hvoid, rfl, rfl, rfl, rfl⟩

theorem endFragment_result {o : Nat} (hr : r.endFragment = .ok (o, r')) :
    ∃ parent outer, r.current.scope = .fragment ∧ r.outer = parent :: outer ∧
      o = r.current.here ∧
      r' = { r.countSplices r.current.refs with
        current := parent.absorb (r.current.words ++
          #[Tag.fragment.word, r.current.refs.length] ++ refWords r.current.refs) r.current.pool
          ⟨r.current.here, r.current.refs⟩
        outer
        counters := { (r.countSplices r.current.refs).counters with
          fragments := r.counters.fragments + 1 } } := by
  rw [endFragment] at hr
  split at hr
  case h_2 => cases hr
  case h_1 _ _ parent outer hscope houter =>
    cases hr
    exact ⟨parent, outer, hscope, houter, rfl, rfl⟩

theorem endFragment_eq_ok {o : Nat} (hr : r.endFragment = .ok (o, r')) :
    ∃ parent outer, r.current.scope = .fragment ∧ r.outer = parent :: outer ∧
      o = r.current.here ∧
      r'.current = parent.absorb (r.current.words ++
        #[Tag.fragment.word, r.current.refs.length] ++ refWords r.current.refs) r.current.pool
        ⟨r.current.here, r.current.refs⟩ ∧
      r'.outer = outer ∧ r'.names = r.names := by
  obtain ⟨parent, outer, hscope, houter, rfl, rfl⟩ := endFragment_result hr
  exact ⟨parent, outer, hscope, houter, rfl, rfl, rfl, rfl⟩

theorem fragment_eq_ok {args : List Token} {o : Nat} (hr : r.fragment args = .ok (o, r')) :
    Draft.claimed args ≤ r.current.entries.size ∧
      (r.enter .fragment (r.current.split (Draft.claimed args)).1
        (r.current.split (Draft.claimed args)).2).endFragment = .ok (o, r') := by
  obtain ⟨⟨rest, entries⟩, hclaim, hr⟩ := of_bind_eq_ok hr
  obtain ⟨hle, hsplit⟩ := claim_eq_ok hclaim
  cases hsplit
  exact ⟨hle, hr⟩

theorem abortFragment_eq_ok (hr : r.abortFragment = .ok r') :
    ∃ parent outer, r.current.scope = .fragment ∧ r.outer = parent :: outer ∧
      r' = { r with current := parent, outer } := by
  rw [abortFragment] at hr
  split at hr
  case h_2 => cases hr
  case h_1 _ _ parent outer hscope houter =>
    cases hr
    exact ⟨parent, outer, hscope, houter, rfl⟩

/-- A recorder can be finished when no level is open and no attribute is left; it is as good as
new then. -/
theorem finish_result {t : Recording} (hr : r.finish = .ok (t, r')) :
    r.outer = [] ∧ (∀ ref ∈ r.current.refs, ref.isAttribute = false) ∧ r' = new ∧
      t = ⟨r.current.words ++ #[Tag.root.word, r.current.refs.length] ++ refWords r.current.refs,
        r.current.pool, r.names, r.current.words.size,
        (r.countSplices r.current.refs).counters⟩ := by
  rw [Recorder.finish] at hr
  by_cases ho : r.outer = []
  · rw [if_neg (not_not_intro ho)] at hr
    by_cases hattr : r.current.refs.any Ref.isAttribute
    · simp only [if_pos hattr] at hr
      cases hr
    · simp only [if_neg hattr] at hr
      cases hr
      refine ⟨ho, fun ref href => ?_, rfl, rfl⟩
      by_contra hr
      exact hattr (List.any_eq_true.2 ⟨ref, href, by simpa using hr⟩)
  · rw [if_pos ho] at hr
    obtain ⟨_, _, hr⟩ := of_bind_eq_ok hr
    cases hr

theorem finish_eq_ok {t : Recording} (hr : r.finish = .ok (t, r')) :
    r.outer = [] ∧ (∀ ref ∈ r.current.refs, ref.isAttribute = false) ∧ r' = new ∧
      t.words = r.current.words ++ #[Tag.root.word, r.current.refs.length] ++
        refWords r.current.refs ∧
      t.pool = r.current.pool ∧ t.names = r.names ∧ t.root = r.current.words.size := by
  obtain ⟨ho, hnodes, hnew, rfl⟩ := finish_result hr
  exact ⟨ho, hnodes, hnew, rfl, rfl, rfl, rfl⟩

/-! ### Mirrors -/

/-- The recorder holds what the draft describes. -/
def Mirrors (r : Recorder) (m : Draft Quote) : Prop :=
  m.names = r.names ∧
    ∃ k, Stands r.names (r.current :: r.outer) (m.current :: m.outer) k

variable {m : Draft Quote}

theorem mirrors_blank (names : Names) :
    Mirrors { new with names } ⟨⟨.root, []⟩, [], names⟩ := by
  have holds : Level.root.Holds .empty names [] [] :=
    { start := rfl, poolStart := rfl, words := rfl
      name := fun name hs => by cases hs
      known := fun p hp => by cases hp
      refers := fun p hp => by cases hp
      tiles := .nil
      entries := .nil }
  exact ⟨rfl, _, .cons .nil rfl (by simp [Level.root, new]) holds⟩

theorem mirrors_new : new.Mirrors Draft.new := mirrors_blank Names.standard

theorem Mirrors.congr (h : r.Mirrors m) (hc : r'.current = r.current) (ho : r'.outer = r.outer)
    (hn : r'.names = r.names) : r'.Mirrors m := by
  rw [Mirrors, hc, ho, hn]
  exact h

theorem Mirrors.addNames (h : r.Mirrors m) {names : Names} (hn : r.names.Extends names) :
    Mirrors { r with names } { m with names } := by
  obtain ⟨_, k, hk⟩ := h
  exact ⟨rfl, k, hk.mono hn⟩

theorem Mirrors.size_eq (h : r.Mirrors m) :
    r.current.entries.size = m.current.items.length := by
  obtain ⟨_, k, hk⟩ := h
  cases hk with
  | cons _ _ _ holds => exact holds.entries.length_eq

/-! ### Recording leaves -/

theorem Mirrors.putLeaf (h : r.Mirrors m) {leaf : Literal → Leaf} {text : String}
    (mark : Mark String) (hleaf : ∀ o, leaf ⟨o, text.utf8ByteSize⟩ = (mark.at o).quoted)
    (htext : text = mark.value?.getD "")
    (hknown : ∀ o, (Block.leaf (mark.at o).quoted).Known r.names) :
    (r.putLeaf leaf text).2.Mirrors (m.add (.mark (mark.at r.current.poolHere))) := by
  obtain ⟨hn, k, hk⟩ := h
  cases hk with
  | cons below scope root holds =>
    exact ⟨hn, _, .cons below scope root (holds.putLeaf mark (hleaf _) htext (hknown _))⟩

theorem Mirrors.valuedAttribute (h : r.Mirrors m) {name : AttributeName} {value : String}
    {o : Nat} (hr : r.valuedAttribute name value = .ok (o, r')) :
    r'.Mirrors (m.add (.mark ((Mark.valued name value).at r.current.poolHere))) := by
  obtain ⟨_, hname, hr⟩ := of_bind_eq_ok hr
  cases hr
  have hc : r.countAttribute.Mirrors m := h.congr rfl rfl rfl
  exact hc.putLeaf (.valued name value) (fun _ => rfl) rfl fun _ =>
    Names.isSome_of_attributeText hname

theorem Mirrors.booleanAttribute (h : r.Mirrors m) {name : AttributeName} {o : Nat}
    (hr : r.booleanAttribute name = .ok (o, r')) :
    r'.Mirrors (m.add (.mark (.boolean name))) := by
  obtain ⟨_, hname, hr⟩ := of_bind_eq_ok hr
  cases hr
  have hc : r.countAttribute.Mirrors m := h.congr rfl rfl rfl
  exact hc.putLeaf (.boolean name) (fun _ => rfl) rfl fun _ =>
    Names.isSome_of_attributeText hname

/-! ### Opening levels -/

def preparedItems (prepared : List PreparedAttribute) : List (Item String) :=
  prepared.map fun p => .mark (.valued p.name p.value)

theorem Level.Holds.putAttributes {k : Stock} {names : Names} (prepared : List PreparedAttribute)
    (hnames : ∀ p ∈ prepared, (names.attributeText? p.name).isSome) :
    ∀ {level : Level} {items : List (Item Quote)} {blocks : List Block},
    level.Holds k names items blocks → ∃ blocks', (level.putAttributes prepared).Holds k names
      (items ++ Item.placeAll level.poolHere (preparedItems prepared)) blocks' := by
  induction prepared with
  | nil => exact fun {_ items blocks} holds => ⟨blocks, (List.append_nil items).symm ▸ holds⟩
  | cons p prepared ih =>
    intro level items blocks holds
    obtain ⟨hname, hnames⟩ := List.forall_mem_cons.1 hnames
    obtain ⟨blocks', holds'⟩ := ih hnames (holds.putLeaf (.valued p.name p.value) rfl rfl hname)
    refine ⟨blocks', ?_⟩
    rw [Level.poolHere_putLeaf, List.append_assoc] at holds'
    exact holds'

theorem Mirrors.keep (h : r.Mirrors m) (count : Nat) :
    Mirrors { r with current := (r.current.split count).1 }
      { m with current := m.current.keep count } := by
  obtain ⟨hn, k, hk⟩ := h
  cases hk with
  | cons below hs root holds => exact ⟨hn, _, .cons below hs root (holds.keep count)⟩

/-- A level that is opened with some attributes and with the last entries of the level around it
holds the attributes and the last items. -/
theorem Mirrors.enterWith (h : r.Mirrors m) {scope : Scope} (hroot : scope ≠ .root)
    (hname : ∀ name, scope = .element name → (r.names.elementText? name).isSome) {count : Nat}
    (hcount : count ≤ r.current.entries.size) (prepared : List PreparedAttribute)
    (hr : (r.enter scope (r.current.split count).1 #[]).preparedAttributes prepared = .ok r') :
    ∃ m', Mirrors { r' with current := { r'.current with
        entries := r'.current.entries ++ (r.current.split count).2 } } m' ∧
      m.enter scope (Item.placeAll r.current.poolHere (preparedItems prepared)) count =
        some m' := by
  have hsize := h.size_eq
  obtain ⟨hn, k, hk⟩ := h
  cases hk with
  | @cons _ _ _ _ k blocks below hs root holds =>
    -- the claimed entries come after the attributes, so the level starts without them
    have hinner := (holds.keep count).enter hname .nil
    obtain ⟨hprepared, rfl⟩ := preparedAttributes_eq_ok prepared hr
    obtain ⟨blocks', holds'⟩ := Level.Holds.putAttributes prepared hprepared hinner
    have hextend := holds'.extend (holds.taken count)
    have hscope := (r.enter scope (r.current.split count).1 #[]).current.scope_putAttributes prepared
    have hlevel : ((r.enter scope (r.current.split count).1 #[]).current.putAttributes
        prepared).scope = .root ↔ (r.current.split count).1 :: r.outer = [] := by
      rw [hscope]
      exact ⟨fun hr => absurd hr hroot, fun hr => by cases hr⟩
    have hkeep : Stands r.names ((r.current.split count).1 :: r.outer)
        (m.current.keep count :: m.outer) ((r.current.split count).1.stock k blocks) :=
      .cons below hs root (holds.keep count)
    refine ⟨⟨⟨scope, Item.placeAll r.current.poolHere (preparedItems prepared) ++
      m.current.taken count⟩, m.current.keep count :: m.outer, m.names⟩,
      ⟨hn, _, .cons hkeep hscope hlevel hextend⟩, ?_⟩
    rw [Draft.enter, if_neg (by omega)]

theorem Mirrors.enter (h : r.Mirrors m) {scope : Scope} (hroot : scope ≠ .root)
    (hname : ∀ name, scope = .element name → (r.names.elementText? name).isSome) {count : Nat}
    (hcount : count ≤ r.current.entries.size) :
    ∃ m', (r.enter scope (r.current.split count).1 (r.current.split count).2).Mirrors m' ∧
      m.enter scope [] count = some m' := by
  obtain ⟨m', hm, he⟩ := h.enterWith hroot hname hcount [] rfl
  refine ⟨m', ?_, he⟩
  rwa [Recorder.enter, Array.empty_append] at hm

theorem Mirrors.enterEmpty (h : r.Mirrors m) {scope : Scope} (hroot : scope ≠ .root)
    (hname : ∀ name, scope = .element name → (r.names.elementText? name).isSome) :
    ∃ m', (r.enter scope r.current #[]).Mirrors m' ∧ m.enter scope [] 0 = some m' := by
  have := h.enter hroot hname (Nat.zero_le _)
  rwa [Level.split_zero] at this

theorem Mirrors.openElement (h : r.Mirrors m) {name : ElementName}
    (hr : r.openElement name = .ok r') :
    ∃ m', r'.Mirrors m' ∧ m.enter (.element name) [] 0 = some m' := by
  obtain ⟨hname, rfl⟩ := openElement_eq_ok hr
  refine h.enterEmpty (by simp) ?_
  rintro _ ⟨⟩
  exact hname

theorem Mirrors.openElementWith (h : r.Mirrors m) {name : ElementName}
    {prepared : List PreparedAttribute} {args : List Token}
    (hr : r.openElementWith name prepared args = .ok r') :
    ∃ m', r'.Mirrors m' ∧ m.enter (.element name)
        (Item.placeAll r.current.poolHere (preparedItems prepared)) (Draft.claimed args) =
      some m' := by
  obtain ⟨hle, hname, s, hfold, rfl⟩ := openElementWith_eq_ok hr
  refine h.enterWith (by simp) ?_ hle prepared hfold
  rintro _ ⟨⟩
  exact hname

theorem Mirrors.adopt (h : r.Mirrors m) {name : ElementName} {count : Nat}
    (hr : r.adopt name count = .ok r') :
    ∃ m', r'.Mirrors m' ∧ m.enter (.element name) [] count = some m' := by
  obtain ⟨hle, hname, rfl⟩ := adopt_eq_ok hr
  refine h.enter (by simp) ?_ hle
  rintro _ ⟨⟩
  exact hname

/-! ### Closing levels -/

theorem Mirrors.closeElement (h : r.Mirrors m) {o : Nat}
    (hr : r.closeElement = .ok (o, r')) :
    ∃ m', r'.Mirrors m' ∧ m.closeElement = some m' := by
  obtain ⟨name, parent, outer, hscope, houter, hvoid, _, hcurrent, hr', hnames⟩ :=
    closeElement_eq_ok hr
  obtain ⟨sheet, sheets, mnames⟩ := m
  obtain ⟨hn, k, hk⟩ := h
  rw [houter] at hk
  cases hk with
  | cons below hs root holds =>
    cases below with
    | @cons _ _ parentSheet parentSheets _ _ below hs' root' holds' =>
      refine ⟨⟨parentSheet.add (.element name sheet.items), parentSheets, mnames⟩,
        ⟨hn.trans hnames.symm, ?_⟩, ?_⟩
      · rw [hcurrent, hr', hnames]
        exact ⟨_, .cons below hs' root' (holds'.closeElement holds hscope hvoid)⟩
      · have hsheet : sheet.scope = .element name := hs.symm.trans hscope
        rw [Draft.closeElement, hsheet]

theorem Mirrors.endFragment (h : r.Mirrors m) {o : Nat} (hr : r.endFragment = .ok (o, r')) :
    ∃ m', r'.Mirrors m' ∧ m.endFragment = some m' := by
  obtain ⟨parent, outer, hscope, houter, _, hcurrent, hr', hnames⟩ := endFragment_eq_ok hr
  obtain ⟨sheet, sheets, mnames⟩ := m
  obtain ⟨hn, k, hk⟩ := h
  rw [houter] at hk
  cases hk with
  | cons below hs root holds =>
    cases below with
    | @cons _ _ parentSheet parentSheets _ _ below hs' root' holds' =>
      refine ⟨⟨parentSheet.add (.fragment sheet.items), parentSheets, mnames⟩,
        ⟨hn.trans hnames.symm, ?_⟩, ?_⟩
      · rw [hcurrent, hr', hnames]
        exact ⟨_, .cons below hs' root' (holds'.endFragment holds hscope)⟩
      · have hsheet : sheet.scope = .fragment := hs.symm.trans hscope
        rw [Draft.endFragment, hsheet]

theorem Mirrors.fragment (h : r.Mirrors m) {args : List Token} {o : Nat}
    (hr : r.fragment args = .ok (o, r')) :
    ∃ m', r'.Mirrors m' ∧
      (m.enter .fragment [] (Draft.claimed args)).bind Draft.endFragment = some m' := by
  obtain ⟨hle, hr⟩ := fragment_eq_ok hr
  obtain ⟨m', hm, he⟩ := h.enter (by simp : Scope.fragment ≠ .root) (by simp) hle
  obtain ⟨m'', hm', he'⟩ := hm.endFragment hr
  refine ⟨m'', hm', ?_⟩
  rw [he, Option.bind_some, he']

theorem Mirrors.abortFragment (h : r.Mirrors m) (hr : r.abortFragment = .ok r') :
    ∃ m', r'.Mirrors m' ∧ m.abortFragment = some m' := by
  obtain ⟨parent, outer, hscope, houter, rfl⟩ := abortFragment_eq_ok hr
  obtain ⟨sheet, sheets, mnames⟩ := m
  obtain ⟨hn, k, hk⟩ := h
  rw [houter] at hk
  cases hk with
  | cons below hs root holds =>
    cases below with
    | @cons _ _ parentSheet parentSheets _ _ below hs' root' holds' =>
      refine ⟨⟨parentSheet, parentSheets, mnames⟩, ⟨hn, _, .cons below hs' root' holds'⟩, ?_⟩
      have hsheet : sheet.scope = .fragment := hs.symm.trans hscope
      rw [Draft.abortFragment, hsheet]

/-! ### Finishing -/

theorem Mirrors.outer_eq_nil (h : r.Mirrors m) (ho : r.outer = []) : m.outer = [] := by
  obtain ⟨_, k, hk⟩ := h
  cases hk with
  | cons below _ _ _ =>
    rw [ho] at below
    generalize m.outer = sheets at below
    cases below with
    | nil => rfl

/-! ### Courses -/

/-- **Every call that a recorder answers is followed by the draft.** -/
theorem Mirrors.step (h : r.Mirrors m) {call : Call ElementName AttributeName} {answer : Answer}
    (hr : r.step call = .ok (answer, r')) :
    ∃ m', r'.Mirrors m' ∧ (m.map Quote.text).step call = some (m'.map Quote.text) := by
  cases call with
  | text value =>
    cases hr
    have hc : r.countText.Mirrors m := h.congr rfl rfl rfl
    refine ⟨_, hc.putLeaf (.text value) (fun _ => rfl) rfl fun _ => trivial, ?_⟩
    rw [Draft.map_add]
    rfl
  | raw value =>
    cases hr
    have hc : r.countText.Mirrors m := h.congr rfl rfl rfl
    refine ⟨_, hc.putLeaf (.raw value) (fun _ => rfl) rfl fun _ => trivial, ?_⟩
    rw [Draft.map_add]
    rfl
  | doctype =>
    cases hr
    refine ⟨_, h.putLeaf .doctype (fun _ => rfl) rfl fun _ => trivial, ?_⟩
    rw [Draft.map_add]
    rfl
  | valued name value =>
    obtain ⟨⟨o, s⟩, hs, he⟩ := of_map_eq_ok hr
    cases he
    refine ⟨_, h.valuedAttribute hs, ?_⟩
    rw [Draft.map_add]
    rfl
  | boolean name =>
    obtain ⟨⟨o, s⟩, hs, he⟩ := of_map_eq_ok hr
    cases he
    refine ⟨_, h.booleanAttribute hs, ?_⟩
    rw [Draft.map_add]
    rfl
  | openElement name =>
    obtain ⟨s, hs, he⟩ := of_map_eq_ok hr
    cases he
    obtain ⟨m', hm, he⟩ := h.openElement hs
    exact ⟨m', hm, Draft.enter_map_eq Quote.text he⟩
  | openWith name prepared args =>
    obtain ⟨s, hs, he⟩ := of_map_eq_ok hr
    cases he
    obtain ⟨m', hm, he⟩ := h.openElementWith hs
    have he := Draft.enter_map_eq Quote.text he
    rw [← Item.mapAll_eq_map, Item.mapAll_placeAll, preparedItems, List.map_map] at he
    exact ⟨m', hm, he⟩
  | adopt name count =>
    obtain ⟨s, hs, he⟩ := of_map_eq_ok hr
    cases he
    obtain ⟨m', hm, he⟩ := h.adopt hs
    exact ⟨m', hm, Draft.enter_map_eq Quote.text he⟩
  | closeElement =>
    obtain ⟨⟨o, s⟩, hs, he⟩ := of_map_eq_ok hr
    cases he
    obtain ⟨m', hm, he⟩ := h.closeElement hs
    refine ⟨m', hm, ?_⟩
    rw [Draft.step, Draft.closeElement_map, he]
    rfl
  | beginFragment =>
    cases hr
    obtain ⟨m', hm, he⟩ := h.enterEmpty (by simp : Scope.fragment ≠ .root) (by simp)
    exact ⟨m', hm, Draft.enter_map_eq Quote.text he⟩
  | fragment args =>
    obtain ⟨⟨o, s⟩, hs, he⟩ := of_map_eq_ok hr
    cases he
    obtain ⟨m', hm, he⟩ := h.fragment hs
    obtain ⟨inner, hinner, he⟩ := Option.bind_eq_some_iff.1 he
    refine ⟨m', hm, Option.bind_eq_some_iff.2 ⟨_, Draft.enter_map_eq Quote.text hinner, ?_⟩⟩
    rw [Draft.endFragment_map, he]
    rfl
  | endFragment =>
    obtain ⟨⟨o, s⟩, hs, he⟩ := of_map_eq_ok hr
    cases he
    obtain ⟨m', hm, he⟩ := h.endFragment hs
    refine ⟨m', hm, ?_⟩
    rw [Draft.step, Draft.endFragment_map, he]
    rfl
  | abortFragment =>
    obtain ⟨s, hs, he⟩ := of_map_eq_ok hr
    cases he
    obtain ⟨m', hm, he⟩ := h.abortFragment hs
    refine ⟨m', hm, ?_⟩
    rw [Draft.step, Draft.abortFragment_map, he]
    rfl
  | finish =>
    obtain ⟨⟨t, s⟩, hs, he⟩ := of_map_eq_ok hr
    cases he
    obtain ⟨ho, _, rfl, _⟩ := finish_eq_ok hs
    refine ⟨Draft.new, mirrors_new, ?_⟩
    rw [Draft.step, Draft.map, h.outer_eq_nil ho]
    rfl
  | reset =>
    cases hr
    exact ⟨Draft.new, mirrors_new, rfl⟩
  | nextId =>
    cases hr
    exact ⟨m, h.congr rfl rfl rfl, rfl⟩
  | internElement name =>
    cases hr
    exact ⟨m, h, rfl⟩
  | internAttribute name =>
    cases hr
    exact ⟨m, h, rfl⟩

theorem Mirrors.request (h : r.Mirrors m) {call : SpelledCall} {answer : Answer}
    (hr : r.request call = .ok (answer, r')) :
    ∃ m', r'.Mirrors m' ∧ (m.map Quote.text).request call = some (m'.map Quote.text) := by
  obtain ⟨result, names, hext, hrun⟩ := Lookup.call_local call r.names
  have hm : (m.map Quote.text).names = r.names := h.1
  have hadd : Mirrors { r with names } { m with names } := h.addNames hext
  rw [Recorder.request, hrun r rfl] at hr
  rw [Draft.request, hrun { new with names := (m.map Quote.text).names } hm]
  cases result with
  | error e =>
    cases hr
    exact ⟨_, hadd, rfl⟩
  | ok call => exact hadd.step hr

/-- **What a recorder was told is what its levels hold**: after every course of requests it
mirrors the draft that the requests describe. -/
theorem Reaches.mirrors {calls : List SpelledCall} (h : Reaches calls r) :
    ∃ m, r.Mirrors m ∧ Draft.new.requestEach calls = some (m.map Quote.text) := by
  refine Reaches.induction (motive := fun calls r =>
    ∃ m, r.Mirrors m ∧ Draft.new.requestEach calls = some (m.map Quote.text)) ?_ ?_ h
  · exact ⟨Draft.new, mirrors_new, rfl⟩
  · rintro calls r call answer r' ⟨m, hm, hcalls⟩ hr
    obtain ⟨m', hm', he⟩ := hm.request hr
    refine ⟨m', hm', ?_⟩
    rw [Draft.requestEach] at hcalls ⊢
    rw [List.foldlM_append, hcalls]
    show ((m.map Quote.text).request call).bind some = _
    rw [he]
    rfl

end Recorder

end HtmlTape
