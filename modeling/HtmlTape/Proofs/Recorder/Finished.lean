import HtmlTape.Proofs.Recorder.Mirror

/-!
# Finished recordings

`Recording.Laid` says how a finished recording is laid out: its words are those of blocks and of
the root record behind them, its literals fill its pool, all references lead back, and the
references of the root show the items of the document.  Every recording that a recorder hands
over is laid out like this, and its items are those of the draft that the requests describe
(`Recording.MadeBy.laid`).
-/

namespace HtmlTape

/-- What is complete of a finished recording that is made of blocks. -/
def Recording.stock (t : Recording) (blocks : List Block) : Stock :=
  ⟨Block.placedAll 0 blocks, t.pool, t.root⟩

/-- The recording consists of the blocks and of a root record with the references `refs`, which
show the items. -/
structure Recording.Laid (t : Recording) (blocks : List Block) (refs : List Ref)
    (items : List (Item Quote)) : Prop where
  words : t.words = (Block.wordsAll blocks ++
    [Tag.root.word, refs.length] ++ refs.map Ref.record).toArray
  root : t.root = Block.sizeAll blocks
  known : ∀ p ∈ Block.placedAll 0 blocks, p.2.Known t.names
  refers : ∀ p ∈ Block.placedAll 0 blocks, Block.RefersBack (Block.placedAll 0 blocks) p
  tiles : Literal.Tiles 0 (Block.literals 0 blocks) t.pool
  shows : Shows (t.stock blocks) t.root refs items
  nodes : ∀ ref ∈ refs, ref.isAttribute = false

/-- **What a finished recording consists of**, if the recorder mirrors a draft. -/
theorem Recorder.Mirrors.laid {r r' : Recorder} {draft : Draft Quote} {t : Recording}
    (hm : r.Mirrors draft) (hfinish : r.finish = .ok (t, r')) :
    ∃ (blocks : List Block) (refs : List Ref), draft.outer = [] ∧ draft.names = t.names ∧
      t.Laid blocks refs draft.current.items := by
  obtain ⟨ho, hnodes, _, hwords, hpool, hnames, hroot⟩ := Recorder.finish_eq_ok hfinish
  have houter : draft.outer = [] := hm.outer_eq_nil ho
  obtain ⟨hn, k, hk⟩ := hm
  rw [ho, houter] at hk
  cases hk with
  | @cons _ _ _ _ _ blocks below _ hscope holds =>
    cases below with
    | nil =>
      have hs : r.current.scope = .root := hscope.2 rfl
      have hstock : r.current.stock .empty blocks =
          ⟨Block.placedAll 0 blocks, r.current.pool, Block.sizeAll blocks⟩ := by
        rw [Level.stock, hs]
        show Stock.mk ([] ++ _) ("" ++ _) (0 + 0 + _) = _
        rw [List.nil_append, String.empty_append, Nat.zero_add]
        rfl
      have hsize : t.root = Block.sizeAll blocks := by
        rw [hroot, holds.words]
        rfl
      have hknown := holds.known
      have hrefers := holds.refers
      have htiles := holds.tiles
      have hshows := holds.shows_refs
      rw [hs] at hknown hrefers htiles
      rw [hstock] at hrefers hshows
      refine ⟨blocks, r.current.refs, houter, hn.trans hnames.symm,
        { words := ?_, root := hsize, known := ?_, refers := hrefers, tiles := ?_, shows := ?_,
          nodes := hnodes }⟩
      · rw [hwords, holds.words, Recorder.refWords]
        simp
      · rw [hnames]
        exact hknown
      · rw [hpool]
        exact htiles
      · rw [Recording.stock, hpool, hsize]
        exact hshows

/-- What a recording consists of that is made by requests. -/
theorem Recording.MadeBy.laid {t : Recording} {calls : List SpelledCall} (h : t.MadeBy calls) :
    ∃ (draft : Draft Quote) (blocks : List Block) (refs : List Ref),
      Draft.new.requestEach calls = some (draft.map Quote.text) ∧ draft.outer = [] ∧
      draft.names = t.names ∧ t.Laid blocks refs draft.current.items := by
  obtain ⟨r, r', hreach, hfinish⟩ := h
  obtain ⟨draft, hm, hcalls⟩ := hreach.mirrors
  obtain ⟨blocks, refs, hlaid⟩ := hm.laid hfinish
  exact ⟨draft, blocks, refs, hcalls, hlaid⟩

end HtmlTape
