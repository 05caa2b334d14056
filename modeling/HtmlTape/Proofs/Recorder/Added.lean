import HtmlTape.Proofs.Recorder.Aborted
import HtmlTape.Proofs.Recorder.Checks
import HtmlTape.Proofs.Recorder.Claims

/-!
# Entries that are added

Recording some arguments, or a whole element with everything inside of it, comes down to this: the
innermost level gets further entries and further literal text, and the levels around it are left
alone (`Recorder.Adds`).  In between, a level may stand open on top of the others
(`Recorder.Inside`).

Arguments that were just added are granted to an element or a fragment whatever was there before
them (`Recorder.Adds.claim`).  A level that is opened on them takes all of them over
(`Recorder.Adds.enter`, `Recorder.Adds.openElementWith`), and closing it adds one entry in their
place (`Recorder.Inside.closeElement`, `Recorder.Inside.endFragment`).
-/

namespace HtmlTape

/-- The draft with further items in its innermost level, and with other names. -/
def Draft.append {τ : Type} (m : Draft τ) (items : List (Item τ)) (names : Names) : Draft τ :=
  ⟨⟨m.current.scope, m.current.items ++ items⟩, m.outer, names⟩

def Level.records (level : Level) : List Nat := level.entries.toList.map Entry.record

theorem Level.records_split (level : Level) (count : Nat) :
    (level.split count).1.records = level.records.take (level.records.length - count) := by
  rw [records, (level.toList_split count).1, List.map_take, records, List.length_map]

theorem Level.pool_putAttributes (prepared : List PreparedAttribute) : ∀ level : Level,
    (level.putAttributes prepared).poolStart = level.poolStart ∧
      (level.putAttributes prepared).pool =
        level.pool ++ Item.textAll (Recorder.preparedItems prepared) := by
  induction prepared with
  | nil => exact fun level => ⟨rfl, String.append_empty.symm⟩
  | cons p prepared ih =>
    intro level
    obtain ⟨hpoolStart, hpool⟩ := ih (level.putLeaf (.valued p.name) p.value)
    exact ⟨hpoolStart, hpool.trans String.append_assoc⟩

namespace Recorder

/-- From `r`, which mirrors `m`, to `r'`, entries were added to the innermost level: they stand at
`records`, they hold `items`, and their literal text is `text`.  Names may have been added too. -/
structure Adds (r : Recorder) (m : Draft Quote) (r' : Recorder) (records : List Nat)
    (items : List (Item Quote)) (text : String) : Prop where
  start : r.Mirrors m
  mirrors : r'.Mirrors (m.append items r'.names)
  names : r.names.Extends r'.names
  outer : r'.outer = r.outer
  poolStart : r'.current.poolStart = r.current.poolStart
  pool : r'.current.pool = r.current.pool ++ text
  records : r'.current.records = r.current.records ++ records

structure Inside (r : Recorder) (m : Draft Quote) (before : String) (r' : Recorder) (scope : Scope)
    (items : List (Item Quote)) (text : String) : Prop where
  start : r.Mirrors m
  mirrors : r'.Mirrors ⟨⟨scope, items⟩, m.current :: m.outer, r'.names⟩
  names : r.names.Extends r'.names
  parent : ∃ parent, r'.outer = parent :: r.outer ∧ parent.poolStart = r.current.poolStart ∧
    parent.pool = r.current.pool ++ before ∧ parent.records = r.current.records
  poolStart : r'.current.poolStart = r.current.poolHere + before.utf8ByteSize
  pool : r'.current.pool = text

variable {r r₁ r₂ r' : Recorder} {m : Draft Quote} {records records' : List Nat}
  {items items' : List (Item Quote)} {text text' before : String} {scope : Scope}

namespace Adds

theorem refl (h : r.Mirrors m) : r.Adds m r [] [] "" where
  start := h
  mirrors := by
    rw [Draft.append, List.append_nil, ← h.1]
    exact h
  names := .refl _
  outer := rfl
  poolStart := rfl
  pool := String.append_empty.symm
  records := (List.append_nil _).symm

theorem trans (h : r.Adds m r₁ records items text)
    (h' : r₁.Adds (m.append items r₁.names) r' records' items' text') :
    r.Adds m r' (records ++ records') (items ++ items') (text ++ text') where
  start := h.start
  mirrors := by
    have hm := h'.mirrors
    rw [Draft.append, Draft.append, List.append_assoc] at hm
    exact hm
  names := h.names.trans h'.names
  outer := h'.outer.trans h.outer
  poolStart := h'.poolStart.trans h.poolStart
  pool := by rw [h'.pool, h.pool, String.append_assoc]
  records := by rw [h'.records, h.records, List.append_assoc]

theorem congr (h : r.Adds m r₁ records items text) (hc : r'.current = r₁.current)
    (ho : r'.outer = r₁.outer) (hn : r₁.names.Extends r'.names) :
    r.Adds m r' records items text where
  start := h.start
  mirrors := by
    have hm : Mirrors { r₁ with names := r'.names } (m.append items r'.names) :=
      h.mirrors.addNames hn
    exact hm.congr hc ho rfl
  names := h.names.trans hn
  outer := ho.trans h.outer
  poolStart := by rw [hc, h.poolStart]
  pool := by rw [hc, h.pool]
  records := by rw [hc, h.records]

theorem poolHere (h : r.Adds m r' records items text) :
    r'.current.poolHere = r.current.poolHere + text.utf8ByteSize := by
  rw [Level.poolHere, Level.poolHere, h.poolStart, h.pool, String.utf8ByteSize_append,
    Nat.add_assoc]

theorem length_eq (h : r.Adds m r' records items text) : records.length = items.length := by
  have hsize : ∀ {r : Recorder} {m : Draft Quote}, r.Mirrors m →
      r.current.records.length = m.current.items.length := by
    intro r m hm
    rw [Level.records, List.length_map, Array.length_toList, hm.size_eq]
  have hbefore := hsize h.start
  have hafter := hsize h.mirrors
  rw [h.records, List.length_append, Draft.append, List.length_append] at hafter
  omega

theorem putLeaf (h : r.Mirrors m) {leaf : Literal → Leaf} (mark : Mark String)
    (hleaf : ∀ o, leaf ⟨o, text.utf8ByteSize⟩ = (mark.at o).quoted)
    (htext : text = mark.value?.getD "")
    (hknown : ∀ o, (Block.leaf (mark.at o).quoted).Known r.names) :
    r.Adds m (r.putLeaf leaf text).2 [r.current.here] [.mark (mark.at r.current.poolHere)]
      text where
  start := h
  mirrors := by
    have hm := h.putLeaf mark hleaf htext hknown
    rwa [Draft.add, Sheet.add, h.1] at hm
  names := .refl _
  outer := rfl
  poolStart := rfl
  pool := rfl
  records := by
    show (r.current.entries.push _).toList.map Entry.record = _
    rw [Array.toList_push, List.map_append]
    rfl

/-! ### Taking over what was added -/

theorem taken (h : r.Adds m r₁ records items text) :
    (m.append items r₁.names).current.taken records.length = items := by
  rw [Sheet.taken, Draft.append, h.length_eq, List.length_append, Nat.add_sub_cancel]
  exact List.drop_left

theorem keep (h : r.Adds m r₁ records items text) :
    (m.append items r₁.names).current.keep records.length = m.current := by
  rw [Sheet.keep, Draft.append, h.length_eq, List.length_append, Nat.add_sub_cancel,
    List.take_left]

theorem records_split (h : r.Adds m r₁ records items text) :
    (r₁.current.split records.length).1.records = r.current.records := by
  rw [Level.records_split, h.records, List.length_append, Nat.add_sub_cancel, List.take_left]

theorem le_size (h : r.Adds m r₁ records items text) :
    records.length ≤ r₁.current.entries.size := by
  have hlength := congrArg List.length h.records
  rw [Level.records, List.length_map, Array.length_toList, List.length_append] at hlength
  omega

/-- **Arguments that were just added are granted.** -/
theorem claim (h : r.Adds m r₁ records items text) {args : List Token}
    (hargs : args.filterMap Token.record? = records) :
    r₁.current.claim args = .ok (r₁.current.split records.length) := by
  have hclaimed : Draft.claimed args = records.length := by rw [Draft.claimed, hargs]
  have hgranted : ∃ x, r₁.current.claim args = .ok x := by
    rw [Level.claim_ok_iff, hclaimed, hargs]
    have hrecords : r₁.current.entries.toList.map Entry.record =
      r.current.records ++ records := h.records
    have hlength := congrArg List.length hrecords
    rw [List.length_map, List.length_append] at hlength
    rw [hrecords, hlength, Nat.add_sub_cancel, List.drop_left]
  obtain ⟨⟨rest, claimed⟩, hx⟩ := hgranted
  rw [hx, (claim_eq_ok hx).2, hclaimed]

/-- **A level that is opened on what was added takes it over**, after some prepared attributes. -/
theorem enterWith (h : r.Adds m r₁ records items text) (hroot : scope ≠ .root)
    (hname : ∀ name, scope = .element name → (r₁.names.elementText? name).isSome)
    (prepared : List PreparedAttribute)
    (hr : (r₁.enter scope (r₁.current.split records.length).1 #[]).preparedAttributes prepared =
      .ok r₂) :
    r.Inside m text
      { r₂ with current := { r₂.current with
        entries := r₂.current.entries ++ (r₁.current.split records.length).2 } }
      scope (Item.placeAll r₁.current.poolHere (preparedItems prepared) ++ items)
      (Item.textAll (preparedItems prepared)) := by
  obtain ⟨m', hm, henter⟩ := h.mirrors.enterWith hroot hname h.le_size prepared hr
  obtain ⟨_, rfl⟩ := preparedAttributes_eq_ok prepared hr
  obtain ⟨hpoolStart, hpool⟩ := Level.pool_putAttributes prepared
    (r₁.enter scope (r₁.current.split records.length).1 #[]).current
  have hm' := Draft.enter_eq_some henter
  rw [h.taken, h.keep] at hm'
  exact
    { start := h.start
      mirrors := hm' ▸ hm
      names := h.names
      parent := ⟨(r₁.current.split records.length).1, congrArg (List.cons _) h.outer,
        h.poolStart, h.pool, h.records_split⟩
      poolStart := hpoolStart.trans h.poolHere
      pool := hpool.trans String.empty_append }

theorem enter (h : r.Adds m r₁ records items text) (hroot : scope ≠ .root)
    (hname : ∀ name, scope = .element name → (r₁.names.elementText? name).isSome) :
    r.Inside m text (r₁.enter scope (r₁.current.split records.length).1
      (r₁.current.split records.length).2) scope items "" := by
  have hinside := h.enterWith hroot hname [] rfl
  rwa [Recorder.enter, Array.empty_append] at hinside

theorem openElementWith (h : r.Adds m r₁ records items text) {args : List Token}
    (hargs : args.filterMap Token.record? = records) {name : ElementName}
    {prepared : List PreparedAttribute} (hr : r₁.openElementWith name prepared args = .ok r₂) :
    r.Inside m text r₂ (.element name)
      (Item.placeAll r₁.current.poolHere (preparedItems prepared) ++ items)
      (Item.textAll (preparedItems prepared)) := by
  obtain ⟨_, hname, s, hfold, rfl⟩ := openElementWith_eq_ok hr
  have hclaimed : Draft.claimed args = records.length := by rw [Draft.claimed, hargs]
  rw [hclaimed] at hfold ⊢
  refine h.enterWith (by simp) ?_ prepared hfold
  rintro _ ⟨⟩
  exact hname

theorem adopt (h : r.Adds m r₁ records items text) {name : ElementName}
    (hr : r₁.adopt name records.length = .ok r₂) : r.Inside m text r₂ (.element name) items "" := by
  obtain ⟨_, hname, rfl⟩ := adopt_eq_ok hr
  refine h.enter (by simp) ?_
  rintro _ ⟨⟩
  exact hname

end Adds

/-! ### Within a level -/

theorem inside_openElement (h : r.Mirrors m) {name : ElementName}
    (hr : r.openElement name = .ok r₁) : r.Inside m "" r₁ (.element name) [] "" := by
  obtain ⟨hname, rfl⟩ := openElement_eq_ok hr
  have hinside := (Adds.refl h).enter (by simp : Scope.element name ≠ .root) (by
    rintro _ ⟨⟩
    exact hname)
  rwa [List.length_nil, Level.split_zero] at hinside

theorem inside_beginFragment (h : r.Mirrors m) :
    r.Inside m "" r.beginFragment .fragment [] "" := by
  have hinside := (Adds.refl h).enter (by simp : Scope.fragment ≠ .root) (by simp)
  rwa [List.length_nil, Level.split_zero] at hinside

namespace Inside

theorem add (h : r.Inside m before r₁ scope items text)
    (h' : r₁.Adds ⟨⟨scope, items⟩, m.current :: m.outer, r₁.names⟩ r' records items' text') :
    r.Inside m before r' scope (items ++ items') (text ++ text') where
  start := h.start
  mirrors := h'.mirrors
  names := h.names.trans h'.names
  parent := by
    obtain ⟨parent, houter, hparent⟩ := h.parent
    exact ⟨parent, h'.outer.trans houter, hparent⟩
  poolStart := h'.poolStart.trans h.poolStart
  pool := by rw [h'.pool, h.pool]

theorem poolHere (h : r.Inside m before r' scope items text) :
    r'.current.poolHere = r.current.poolHere + (before ++ text).utf8ByteSize := by
  rw [Level.poolHere, h.poolStart, h.pool, String.utf8ByteSize_append, Nat.add_assoc]

theorem scope_eq (h : r.Inside m before r' scope items text) : r'.current.scope = scope := by
  have hscopes := h.mirrors.map_scope
  exact (List.cons.inj hscopes).1

/-- The level around the open one gets all of its text, and an entry for it. -/
theorem absorb (h : r.Inside m before r₁ scope items text) {parent : Level} {outer : List Level}
    {entry : Entry} {words : Array Nat} {item : Item Quote} (houter : r₁.outer = parent :: outer)
    (hcurrent : r'.current = parent.absorb words r₁.current.pool entry) (ho : r'.outer = outer)
    (hn : r'.names = r₁.names) (hm : r'.Mirrors (m.append [item] r₁.names)) :
    r.Adds m r' [entry.record] [item] (before ++ text) := by
  obtain ⟨parent', houter', hpoolStart, hpool, hrecords⟩ := h.parent
  obtain ⟨rfl, rfl⟩ := List.cons.inj (houter.symm.trans houter')
  exact
    { start := h.start
      mirrors := hn ▸ hm
      names := hn ▸ h.names
      outer := ho
      poolStart := by rw [hcurrent]; exact hpoolStart
      pool := by rw [hcurrent, ← String.append_assoc, ← hpool, ← h.pool]; rfl
      records := by
        rw [hcurrent, ← hrecords]
        show (parent.entries.push entry).toList.map Entry.record = _
        rw [Array.toList_push, List.map_append]
        rfl }

/-- **Closing an element adds it as one entry.** -/
theorem closeElement {name : ElementName} (h : r.Inside m before r₁ (.element name) items text)
    {o : Nat} (hr : r₁.closeElement = .ok (o, r')) :
    r.Adds m r' [o] [.element name items] (before ++ text) := by
  obtain ⟨m', hm, he⟩ := h.mirrors.closeElement hr
  obtain ⟨_, parent, outer, _, houter, _, rfl, hcurrent, ho, hn⟩ := closeElement_eq_ok hr
  cases he
  exact h.absorb houter hcurrent ho hn hm

/-- **Ending a fragment adds it as one entry.** -/
theorem endFragment (h : r.Inside m before r₁ .fragment items text) {o : Nat}
    (hr : r₁.endFragment = .ok (o, r')) : r.Adds m r' [o] [.fragment items] (before ++ text) := by
  obtain ⟨m', hm, he⟩ := h.mirrors.endFragment hr
  obtain ⟨parent, outer, _, houter, rfl, hcurrent, ho, hn⟩ := endFragment_eq_ok hr
  cases he
  exact h.absorb houter hcurrent ho hn hm

theorem abortFragment (h : r.Inside m "" r₁ .fragment items text)
    (hr : r₁.abortFragment = .ok r') : r.Adds m r' [] [] "" := by
  obtain ⟨m', hm, he⟩ := h.mirrors.abortFragment hr
  obtain ⟨parent, outer, _, houter, rfl⟩ := abortFragment_eq_ok hr
  obtain ⟨_, houter', hpoolStart, hpool, hrecords⟩ := h.parent
  obtain ⟨rfl, rfl⟩ := List.cons.inj (houter.symm.trans houter')
  cases he
  exact
    { start := h.start
      mirrors := by
        rw [Draft.append, List.append_nil]
        exact hm
      names := h.names
      outer := rfl
      poolStart := hpoolStart
      pool := hpool
      records := hrecords.trans (List.append_nil _).symm }

theorem exists_endFragment (h : r.Inside m before r₁ .fragment items text) :
    ∃ result, r₁.endFragment = .ok result := by
  obtain ⟨parent, houter, _⟩ := h.parent
  rw [Recorder.endFragment, h.scope_eq, houter]
  exact ⟨_, rfl⟩

theorem exists_abortFragment (h : r.Inside m before r₁ .fragment items text) :
    ∃ r', r₁.abortFragment = .ok r' := by
  obtain ⟨parent, houter, _⟩ := h.parent
  rw [Recorder.abortFragment, h.scope_eq, houter]
  exact ⟨_, rfl⟩

/-- An element can be closed unless it is void and holds anything but attributes. -/
theorem closeElement_iff {name : ElementName}
    (h : r.Inside m before r₁ (.element name) items text) :
    (∃ result, r₁.closeElement = .ok result) ↔
      (name.kind.isVoid → ∀ item ∈ Item.expandedAll items, item.isAttribute) := by
  rw [h.mirrors.closeElement_iff, h.scope_eq]
  constructor
  · rintro ⟨_, ⟨⟩, hvoid⟩
    exact hvoid
  · exact fun hvoid => ⟨name, rfl, hvoid⟩

end Inside

theorem Adds.fragment (h : r.Adds m r₁ records items text) {args : List Token}
    (hargs : args.filterMap Token.record? = records) :
    ∃ o r', r₁.fragment args = .ok (o, r') ∧ r.Adds m r' [o] [.fragment items] text := by
  have hinside := h.enter (by simp : Scope.fragment ≠ .root) (by simp)
  obtain ⟨⟨o, r'⟩, hend⟩ := hinside.exists_endFragment
  have hadds := hinside.endFragment hend
  rw [String.append_empty] at hadds
  refine ⟨o, r', ?_, hadds⟩
  rw [Recorder.fragment, h.claim hargs]
  exact hend

end Recorder

end HtmlTape
