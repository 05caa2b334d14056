import HtmlTape.Proofs.Draft.Machine
import HtmlTape.Proofs.Recorder.Shows
import Mathlib.Data.List.Forall2

/-!
# What levels hold

`Level.Holds` is the invariant of an open level: its words are the words of blocks, its literals
fill its text, the references in its blocks lead back, and each of its entries stands for the item in
the same place.  All of this is relative to the stock of the levels around it, which is fixed
while the level is open; `Stands` says it of a stack of levels.

Each way in which a level changes keeps the invariant: recording a leaf (`Level.Holds.putLeaf`),
giving away the last entries (`Level.Holds.keep`) and taking them over (`Level.Holds.extend`),
and absorbing a closed element or an ended fragment (`Level.Holds.closeElement`,
`Level.Holds.endFragment`).
-/

namespace HtmlTape

/-! ### Levels -/

theorem Shows.of_entries {k : Stock} {entries : List Entry} {items : List (Item Quote)}
    (h : List.Forall₂ (Entry.StandsFor · k ·) entries items) :
    Shows k k.here (entries.flatMap Entry.refs) items := by
  induction h with
  | nil => exact .nil
  | cons hentry _ ih => exact hentry.shows.append ih

/-- Recording a leaf takes over its block. -/
theorem Level.putLeaf_eq_absorb (level : Level) (leaf : Literal → Leaf) (text : String) :
    level.putLeaf leaf text =
      level.absorb (Block.wordsAll [.leaf (leaf ⟨level.poolHere, text.utf8ByteSize⟩)]).toArray text
        (.single level.here (leaf ⟨level.poolHere, text.utf8ByteSize⟩).isAttribute) := by
  have hwords : level.words ++ (leaf ⟨level.poolHere, text.utf8ByteSize⟩).words =
      level.words ++ (leaf ⟨level.poolHere, text.utf8ByteSize⟩).words.toArray :=
    Array.ext' (by simp)
  rw [putLeaf, absorb, hwords, Block.wordsAll, Block.words, Block.wordsAll, List.append_nil]

theorem Level.elementWords_eq {level : Level} {blocks : List Block}
    (h : level.words = (Block.wordsAll blocks).toArray) (name : ElementName) :
    Recorder.elementWords name level.words level.refs =
      (Block.wordsAll [.element name blocks (level.refs.map Ref.record)]).toArray := by
  rw [Recorder.elementWords, Recorder.refWords, h]
  simp [Block.wordsAll, Block.words]

theorem Level.fragmentWords_eq {level : Level} {blocks : List Block}
    (h : level.words = (Block.wordsAll blocks).toArray) :
    level.words ++ #[Tag.fragment.word, level.refs.length] ++ Recorder.refWords level.refs =
      (Block.wordsAll (blocks ++ [.fragment (level.refs.map Ref.record)])).toArray := by
  rw [Recorder.refWords, h, Block.wordsAll_append]
  simp [Block.wordsAll, Block.words]

/-- The stock after a level made of `blocks`, when `k` is the stock before it. -/
def Level.stock (level : Level) (k : Stock) (blocks : List Block) : Stock :=
  (k.enter level.scope).grow blocks level.pool

/-- The level holds the items, as entries into the blocks that it is made of; `k` is the stock of
the levels around it. -/
structure Level.Holds (level : Level) (k : Stock) (names : Names) (items : List (Item Quote))
    (blocks : List Block) : Prop where
  start : level.start = k.here
  poolStart : level.poolStart = k.pool.utf8ByteSize
  words : level.words = (Block.wordsAll blocks).toArray
  name : ∀ name, level.scope = .element name → (names.elementText? name).isSome
  known : ∀ p ∈ Block.placedAll (k.enter level.scope).here blocks, p.2.Known names
  refers : ∀ p ∈ Block.placedAll (k.enter level.scope).here blocks,
    Block.RefersBack (level.stock k blocks).records p
  tiles : Literal.Tiles k.pool.utf8ByteSize
    (Block.literals (k.enter level.scope).here blocks) level.pool
  entries : List.Forall₂ (Entry.StandsFor · (level.stock k blocks) ·) level.entries.toList items

namespace Level.Holds

variable {level : Level} {k : Stock} {names names' : Names} {items : List (Item Quote)}
  {blocks : List Block}

theorem mono (h : level.Holds k names items blocks) (hn : names.Extends names') :
    level.Holds k names' items blocks :=
  { h with
    name := fun name hs => hn.isSome_element (h.name name hs)
    known := fun p hp => (h.known p hp).mono hn }

theorem here_eq (h : level.Holds k names items blocks) :
    level.here = (level.stock k blocks).here := by
  rw [Level.here, h.start, h.words, List.size_toArray]
  rfl

theorem poolHere_eq (h : level.Holds k names items blocks) :
    level.poolHere = (level.stock k blocks).pool.utf8ByteSize := by
  rw [Level.poolHere, h.poolStart]
  exact String.utf8ByteSize_append.symm

theorem shows_refs (h : level.Holds k names items blocks) :
    Shows (level.stock k blocks) (level.stock k blocks).here level.refs items :=
  Shows.of_entries h.entries

/-- **A level that takes over further blocks**, with an entry for them, holds one item more. -/
theorem absorb (h : level.Holds k names items blocks) (new : List Block) (pool : String)
    {entry : Entry} {item : Item Quote}
    (hknown : ∀ p ∈ Block.placedAll (level.stock k blocks).here new, p.2.Known names)
    (hrefers : ∀ p ∈ Block.placedAll (level.stock k blocks).here new,
      Block.RefersBack ((level.stock k blocks).grow new pool).records p)
    (htiles : Literal.Tiles (level.stock k blocks).pool.utf8ByteSize
      (Block.literals (level.stock k blocks).here new) pool)
    (hentry : entry.StandsFor ((level.stock k blocks).grow new pool) item) :
    (level.absorb (Block.wordsAll new).toArray pool entry).Holds k names (items ++ [item])
      (blocks ++ new) := by
  have hstock : (level.absorb (Block.wordsAll new).toArray pool entry).stock k (blocks ++ new) =
      (level.stock k blocks).grow new pool :=
    (Stock.grow_grow (k.enter level.scope) blocks new level.pool pool).symm
  have hwithin := (level.stock k blocks).within_grow new pool
  refine ⟨h.start, h.poolStart, ?_, h.name, ?_, ?_, ?_, ?_⟩
  · rw [Level.absorb, h.words, List.append_toArray, Block.wordsAll_append]
  · intro p hp
    rw [Block.placedAll_append] at hp
    exact (List.mem_append.1 hp).elim (h.known p) (hknown p)
  · intro p hp
    rw [hstock]
    rw [Block.placedAll_append] at hp
    refine (List.mem_append.1 hp).elim (fun hp => ?_) (hrefers p)
    exact (h.refers p hp).mono hwithin.records
  · rw [Block.literals_append]
    refine h.tiles.append ?_
    rw [← String.utf8ByteSize_append]
    exact htiles
  · rw [hstock, Level.absorb, Array.toList_push]
    refine List.rel_append ?_ (List.Forall₂.cons hentry List.Forall₂.nil)
    exact h.entries.imp fun _ _ hs => hs.mono hwithin

theorem keep (h : level.Holds k names items blocks) (count : Nat) :
    (level.split count).1.Holds k names (items.take (items.length - count)) blocks := by
  have hlen : level.entries.size = items.length := h.entries.length_eq
  refine { h with entries := ?_ }
  show List.Forall₂ _ (level.entries.extract 0 (level.entries.size - count)).toList _
  rw [Array.toList_extract, List.extract_eq_take_drop, List.drop_zero, Nat.sub_zero, hlen]
  exact List.forall₂_take _ h.entries

theorem taken (h : level.Holds k names items blocks) (count : Nat) :
    List.Forall₂ (Entry.StandsFor · (level.stock k blocks) ·)
      (level.split count).2.toList (items.drop (items.length - count)) := by
  have hlen : level.entries.size = items.length := h.entries.length_eq
  show List.Forall₂ _
    (level.entries.extract (level.entries.size - count) level.entries.size).toList _
  rw [Array.toList_extract, List.extract_eq_take_drop, hlen, List.take_of_length_le]
  · exact List.forall₂_drop _ h.entries
  · exact Nat.le_of_eq (by rw [List.length_drop, Array.length_toList, hlen])

end Level.Holds

/-- A level holds what it is given from the level around it, after what it holds. -/
theorem Level.Holds.extend {level : Level} {k : Stock} {names : Names}
    {items more : List (Item Quote)} {blocks : List Block}
    (h : level.Holds k names items blocks) {entries : Array Entry}
    (hentries : List.Forall₂ (Entry.StandsFor · k ·) entries.toList more) :
    ({ level with entries := level.entries ++ entries } : Level).Holds k names (items ++ more)
      blocks := by
  have hwithin : k.Within (level.stock k blocks) :=
    (k.within_enter level.scope).trans (Stock.within_grow _ blocks level.pool)
  refine { h with entries := ?_ }
  rw [Array.toList_append]
  refine List.rel_append h.entries ?_
  exact hentries.imp fun _ _ hs => hs.mono hwithin

/-- A new level inside of another holds the items whose entries it is given. -/
theorem Level.Holds.enter {level : Level} {k : Stock} {names : Names}
    {items inside : List (Item Quote)} {blocks : List Block}
    (h : level.Holds k names items blocks) {scope : Scope} {entries : Array Entry}
    (hname : ∀ name, scope = .element name → (names.elementText? name).isSome)
    (hentries : List.Forall₂ (Entry.StandsFor · (level.stock k blocks) ·)
      entries.toList inside) :
    (Level.mk scope level.here level.poolHere #[] "" entries).Holds (level.stock k blocks) names
      inside [] := by
  have hempty : (Level.mk scope level.here level.poolHere #[] "" #[]).Holds
      (level.stock k blocks) names [] [] :=
    { start := h.here_eq
      poolStart := h.poolHere_eq
      words := rfl
      name := hname
      known := fun p hp => by cases hp
      refers := fun p hp => by cases hp
      tiles := .nil
      entries := .nil }
  have := hempty.extend hentries
  rwa [Array.empty_append, List.nil_append] at this

theorem Level.Holds.putLeaf {level : Level} {k : Stock} {names : Names}
    {items : List (Item Quote)} {blocks : List Block} (h : level.Holds k names items blocks)
    {leaf : Literal → Leaf} {text : String} (mark : Mark String)
    (hleaf : leaf ⟨level.poolHere, text.utf8ByteSize⟩ = (mark.at level.poolHere).quoted)
    (htext : text = mark.value?.getD "")
    (hknown : (Block.leaf (mark.at level.poolHere).quoted).Known names) :
    (level.putLeaf leaf text).Holds k names (items ++ [.mark (mark.at level.poolHere)])
      (blocks ++ [.leaf (mark.at level.poolHere).quoted]) := by
  have habsorb : level.putLeaf leaf text =
      level.absorb (Block.wordsAll [.leaf (mark.at level.poolHere).quoted]).toArray text
        (.single level.here (mark.at level.poolHere).isAttribute) := by
    rw [level.putLeaf_eq_absorb, hleaf, Mark.isAttribute_quoted]
  rw [habsorb]
  refine h.absorb _ text ?_ ?_ ?_ ?_
  · intro p hp
    obtain rfl := List.mem_singleton.1 hp
    exact hknown
  · intro p hp
    obtain rfl := List.mem_singleton.1 hp
    intro ref href
    cases href
  · rw [← h.poolHere_eq]
    cases mark with
    | text => subst htext; exact .single level.poolHere _
    | raw => subst htext; exact .single level.poolHere _
    | valued => subst htext; exact .single level.poolHere _
    | doctype => subst htext; exact .nil
    | boolean => subst htext; exact .nil
  · have hmem : (level.here, Block.leaf (mark.at level.poolHere).quoted) ∈
        ((level.stock k blocks).grow [.leaf (mark.at level.poolHere).quoted] text).records := by
      rw [h.here_eq]
      exact List.mem_append_right _ (List.mem_singleton.2 rfl)
    refine ⟨?_, .mark hmem ?_ ?_ .nil⟩
    · rw [← Mark.isAttribute_quoted]
      exact .single hmem rfl
    · simp [Stock.grow, h.here_eq]
    · intro q hq
      refine ⟨(level.stock k blocks).pool, "", ?_, ?_⟩
      · cases mark <;> cases hq <;> subst htext <;> exact String.append_empty.symm
      · rw [← h.poolHere_eq]
        cases mark <;> cases hq <;> rfl

/-- The level around an element that is closed holds the element. -/
theorem Level.Holds.closeElement {parent level : Level} {k : Stock} {names : Names}
    {before items : List (Item Quote)} {placed blocks : List Block}
    (hp : parent.Holds k names before placed)
    (h : level.Holds (parent.stock k placed) names items blocks) {name : ElementName}
    (hs : level.scope = .element name)
    (hvoid : name.kind.isVoid → ∀ ref ∈ level.refs, ref.isAttribute) :
    (parent.absorb (Recorder.elementWords name level.words level.refs) level.pool
      (.single level.start false)).Holds k names (before ++ [.element name items])
      (placed ++ [.element name blocks (level.refs.map Ref.record)]) := by
  have hstock : level.stock (parent.stock k placed) blocks =
      ((parent.stock k placed).enter (.element name)).grow blocks level.pool := by
    rw [Level.stock, hs]
  have hshows := h.shows_refs
  have hknown := h.known
  have hrefers := h.refers
  have htiles := h.tiles
  rw [hs] at hknown hrefers htiles
  rw [hstock] at hshows hrefers
  -- the element is laid around the blocks where they are, so what they show stays shown
  have hwithin := (parent.stock k placed).within_element name blocks
    (level.refs.map Ref.record) level.pool
  rw [Level.elementWords_eq h.words, h.start]
  refine hp.absorb _ level.pool ?_ ?_ ?_ ?_
  · intro p hp
    rcases Block.mem_placedAll_singleton.1 hp with rfl | hp
    · exact h.name name hs
    · exact hknown p hp
  · intro p hp
    rcases Block.mem_placedAll_singleton.1 hp with rfl | hp
    · intro o (ho : o ∈ level.refs.map Ref.record)
      obtain ⟨ref, href, rfl⟩ := List.mem_map.1 ho
      obtain ⟨b, hb, hfrag, hle⟩ := hshows.refers ref href
      exact ⟨b, hwithin.records _ hb, hfrag, hle⟩
    · exact (hrefers p hp).mono hwithin.records
  · rw [Block.literals, Block.placedAll, Block.placed, Block.placedAll, List.append_nil]
    exact htiles
  · have hmem : ((parent.stock k placed).here,
          Block.element name blocks (level.refs.map Ref.record)) ∈
        ((parent.stock k placed).grow _ level.pool).records :=
      List.mem_append_right _ (Block.mem_placedAll_singleton.2 (.inl rfl))
    refine ⟨.single hmem rfl, .element hmem ?_ hvoid (hshows.mono hwithin (Nat.le_refl _)) .nil⟩
    simp [Stock.grow]

theorem Level.Holds.endFragment {parent level : Level} {k : Stock} {names : Names}
    {before items : List (Item Quote)} {placed blocks : List Block}
    (hp : parent.Holds k names before placed)
    (h : level.Holds (parent.stock k placed) names items blocks)
    (hs : level.scope = .fragment) :
    (parent.absorb (level.words ++ #[Tag.fragment.word, level.refs.length] ++
        Recorder.refWords level.refs) level.pool ⟨level.here, level.refs⟩).Holds k names
      (before ++ [.fragment items])
      (placed ++ (blocks ++ [.fragment (level.refs.map Ref.record)])) := by
  have hstock : level.stock (parent.stock k placed) blocks =
      (parent.stock k placed).grow blocks level.pool := by
    rw [Level.stock, hs]
    rfl
  have hshows := h.shows_refs
  have hknown := h.known
  have hrefers := h.refers
  have htiles := h.tiles
  rw [hs] at hknown hrefers htiles
  rw [hstock] at hshows hrefers
  have hgrow := Stock.grow_grow (parent.stock k placed) blocks
    [.fragment (level.refs.map Ref.record)] level.pool ""
  rw [String.append_empty] at hgrow
  have hwithin := ((parent.stock k placed).grow blocks level.pool).within_grow
    [.fragment (level.refs.map Ref.record)] ""
  rw [hgrow] at hwithin
  rw [Level.fragmentWords_eq h.words]
  refine hp.absorb _ level.pool ?_ ?_ ?_ ?_
  · intro p hp
    rw [Block.placedAll_append] at hp
    rcases List.mem_append.1 hp with hp | hp
    · exact hknown p hp
    · obtain rfl := List.mem_singleton.1 hp
      trivial
  · intro p hp
    rw [Block.placedAll_append] at hp
    rcases List.mem_append.1 hp with hp | hp
    · exact (hrefers p hp).mono hwithin.records
    · obtain rfl := List.mem_singleton.1 hp
      intro o (ho : o ∈ level.refs.map Ref.record)
      obtain ⟨ref, href, rfl⟩ := List.mem_map.1 ho
      obtain ⟨b, hb, hfrag, hle⟩ := hshows.refers ref href
      exact ⟨b, hwithin.records _ hb, hfrag, Nat.le_trans hle (Nat.le_add_right _ _)⟩
  · rw [Block.literals_append]
    have := htiles.append .nil
    rwa [String.append_empty] at this
  · have hshown := Shows.fragment (hshows.mono hwithin hwithin.here) .nil
    rw [List.append_nil] at hshown
    refine ⟨.fragment ?_, hshown⟩
    rw [h.here_eq, hstock, ← hgrow]
    exact List.mem_append_right _ (List.mem_singleton.2 rfl)

/-! ### Stacks of levels -/

/-- The levels, the innermost of them first, hold the levels of a draft; the stock is that after
all of them.  The outermost level, and no other, is the document's own. -/
inductive Stands (names : Names) : List Level → List (Sheet Quote) → Stock → Prop
  | nil : Stands names [] [] .empty
  | cons {level : Level} {outer : List Level} {sheet : Sheet Quote} {sheets : List (Sheet Quote)}
      {k : Stock} {blocks : List Block} (below : Stands names outer sheets k)
      (scope : level.scope = sheet.scope) (root : level.scope = .root ↔ outer = [])
      (holds : level.Holds k names sheet.items blocks) :
      Stands names (level :: outer) (sheet :: sheets) (level.stock k blocks)

theorem Stands.mono {names names' : Names} {levels : List Level} {sheets : List (Sheet Quote)}
    {k : Stock} (h : Stands names levels sheets k) (hn : names.Extends names') :
    Stands names' levels sheets k := by
  induction h with
  | nil => exact .nil
  | cons _ scope root holds ih => exact .cons ih scope root (holds.mono hn)

theorem Stands.ends {names : Names} {levels : List Level} {sheets : List (Sheet Quote)} {k : Stock}
    (h : Stands names levels sheets k) :
    (Level.wordsAll levels).size = k.here ∧ Level.poolAll levels = k.pool := by
  induction h with
  | nil => exact ⟨rfl, rfl⟩
  | @cons level outer sheet sheets k blocks _ _ _ holds ih =>
    rw [Level.wordsAll_cons, Level.poolAll_cons, ih.2, Array.size_append, Array.size_append, ih.1,
      holds.words, List.size_toArray]
    exact ⟨rfl, rfl⟩

end HtmlTape
