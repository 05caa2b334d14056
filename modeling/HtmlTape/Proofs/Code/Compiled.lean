import HtmlTape.Proofs.Code.Forest
import HtmlTape.Proofs.Recorder.Format

/-!
# Compiled recordings

Compiling follows the references of a recording from the root.  What references show is what
compiling makes of them (`Laid.exists_nodes`): attributes become the groups of their element, and
everything else becomes the bytecode of its trees, in order.  So every finished recording can be
compiled, and the document spells the trees of the draft that was recorded
(`Recording.MadeBy.compile`).
-/

namespace HtmlTape

namespace Recording

variable {t : Recording} {blocks : List Block} {root refs : List Ref}
  {doc items : List (Item Quote)} {limit : Nat}

/-! ### What the records are -/

theorem Laid.exists_records (h : t.Laid blocks root doc)
    (hs : Shows (t.stock blocks) limit refs items) :
    ∃ records, (refs.map Ref.record).mapM t.record = .ok records ∧
      records.filterMap Record.attribute? =
        (Item.attributesAll items).map (fun a => (a.1, a.2.map Quote.literal)) ∧
      records.any (!·.isAttribute) = !(Item.treesAll items).isEmpty := by
  induction hs with
  | nil => exact ⟨[], rfl, rfl, rfl⟩
  | @mark _ o m refs items hmem hle hin rest ih =>
    obtain ⟨records, hrecords, hattrs, hany⟩ := ih
    have hread : t.record o = .ok (.leaf m.quoted) := h.reads _ hmem
    refine ⟨.leaf m.quoted :: records, ?_, ?_, ?_⟩
    · rw [List.map_cons, List.mapM_cons, hread, hrecords]
      rfl
    · rw [Item.attributesAll, List.map_append, ← hattrs]
      cases m <;> rfl
    · rw [List.any_cons, hany, Item.treesAll, isEmpty_append]
      cases m <;> rfl
  | @element _ o name blocks' inner refs children items hmem hle hvoid inside rest _ ih =>
    obtain ⟨records, hrecords, hattrs, hany⟩ := ih
    have hread : t.record o = .ok (Block.element name blocks' (inner.map Ref.record)).record :=
      h.reads _ hmem
    refine ⟨(Block.element name blocks' (inner.map Ref.record)).record :: records, ?_, ?_, ?_⟩
    · rw [List.map_cons, List.mapM_cons, hread, hrecords]
      rfl
    · exact hattrs
    · rfl
  | @fragment _ inner refs children items inside rest ih₁ ih₂ =>
    obtain ⟨records, hrecords, hattrs, hany⟩ := ih₁
    obtain ⟨records', hrecords', hattrs', hany'⟩ := ih₂
    refine ⟨records ++ records', ?_, ?_, ?_⟩
    · rw [List.map_append, List.mapM_append, hrecords, hrecords']
      rfl
    · rw [List.filterMap_append, hattrs, hattrs', Item.attributesAll, List.map_append]
      rfl
    · rw [List.any_append, hany, hany', Item.treesAll, isEmpty_append, Bool.not_and]
      rfl

/-! ### What compiling makes of them -/

theorem Laid.nodeInstructions_mark (h : t.Laid blocks root doc) {o : Nat} {m : Mark Quote}
    (hmem : (o, Block.leaf m.quoted) ∈ Block.placedAll 0 blocks) :
    t.nodeInstructions limit o = .ok (Tree.instructionsAll m.trees) := by
  have hread : t.record o = .ok (.leaf m.quoted) := h.reads _ hmem
  rw [nodeInstructions, hread]
  cases m <;> rfl

/-- An element is compiled to its bytecode if its references are compiled to that of its
children. -/
theorem Laid.nodeInstructions_element (h : t.Laid blocks root doc) {o : Nat} {name : ElementName}
    {inner : List Block} (hmem : (o, Block.element name inner (refs.map Ref.record)) ∈
      Block.placedAll 0 blocks)
    (hle : o + (Block.element name inner (refs.map Ref.record)).size ≤ limit)
    (hvoid : name.kind.isVoid → ∀ ref ∈ refs, ref.isAttribute)
    (hs : Shows (t.stock blocks) (o + 3 + Block.sizeAll inner) refs items)
    {nodes : List (List Instruction)}
    (hnodes : (refs.map Ref.record).mapM (t.nodeInstructions (o + 3 + Block.sizeAll inner)) =
      .ok nodes) (hflat : nodes.flatten = Tree.instructionsAll (Item.treesAll items)) :
    t.nodeInstructions limit o = .ok (Tree.instructions (.element name
      (Group.gather (Item.attributesAll items)) (Item.treesAll items))) := by
  have hread : t.record o = .ok (.element name
      (Block.sizeAll inner + (refs.map Ref.record).length + 5) (refs.map Ref.record)) :=
    h.reads _ hmem
  have hstart : o + (Block.sizeAll inner + (refs.map Ref.record).length + 5) - 2 -
      (refs.map Ref.record).length = o + 3 + Block.sizeAll inner := by
    omega
  obtain ⟨records, hrecords, hattrs, hany⟩ := h.exists_records hs
  rw [Block.size_element] at hle
  rw [nodeInstructions, hread]
  simp only
  rw [hstart, if_pos (by omega), hrecords]
  show (if name.kind.isVoid = true then _ else _) = _
  rw [hattrs, AttributeGroup.gather_literal, hany, Tree.instructions]
  by_cases hv : name.kind.isVoid
  · have hnil : Item.treesAll items = [] := hs.treesAll_eq_nil_iff.2 (hvoid hv)
    rw [if_pos hv, if_pos hv, hnil]
    rfl
  · rw [if_neg hv, if_neg hv, hnodes, ← hflat]
    rfl

/-- **What references show is what they are compiled to.** -/
theorem Laid.exists_nodes (h : t.Laid blocks root doc)
    (hs : Shows (t.stock blocks) limit refs items) :
    ∃ nodes, (refs.map Ref.record).mapM (t.nodeInstructions limit) = .ok nodes ∧
      nodes.flatten = Tree.instructionsAll (Item.treesAll items) := by
  induction hs with
  | nil => exact ⟨[], rfl, rfl⟩
  | @mark _ o m refs items hmem hle hin rest ih =>
    obtain ⟨nodes, hnodes, hflat⟩ := ih
    refine ⟨Tree.instructionsAll m.trees :: nodes, ?_, ?_⟩
    · rw [List.map_cons, List.mapM_cons, h.nodeInstructions_mark hmem, hnodes]
      rfl
    · rw [List.flatten_cons, hflat, Item.treesAll, Tree.instructionsAll_append]
      rfl
  | @element limit o name blocks' inner refs children items hmem hle hvoid inside rest ih₁ ih₂ =>
    obtain ⟨nodes₁, hnodes₁, hflat₁⟩ := ih₁
    obtain ⟨nodes, hnodes, hflat⟩ := ih₂
    have hnode := h.nodeInstructions_element hmem hle hvoid inside hnodes₁ hflat₁
    refine ⟨Tree.instructions (.element name (Group.gather (Item.attributesAll children))
      (Item.treesAll children)) :: nodes, ?_, ?_⟩
    · rw [List.map_cons, List.mapM_cons, hnode, hnodes]
      rfl
    · rw [List.flatten_cons, hflat, Item.treesAll, Tree.instructionsAll_append, Item.trees,
        Tree.instructionsAll, Tree.instructionsAll, List.append_nil]
  | @fragment _ inner refs children items inside rest ih₁ ih₂ =>
    obtain ⟨nodes, hnodes, hflat⟩ := ih₁
    obtain ⟨nodes', hnodes', hflat'⟩ := ih₂
    refine ⟨nodes ++ nodes', ?_, ?_⟩
    · rw [List.map_append, List.mapM_append, hnodes, hnodes']
      rfl
    · rw [List.flatten_append, hflat, hflat', Item.treesAll, Tree.instructionsAll_append]
      rfl

/-- The root's references may not lead to attributes; apart from that they are compiled as those
of an element are. -/
theorem Laid.mapM_topInstructions (h : t.Laid blocks root doc)
    (hs : Shows (t.stock blocks) limit refs items) (hnodes : ∀ ref ∈ refs, ref.isAttribute = false) :
    (refs.map Ref.record).mapM t.topInstructions =
      (refs.map Ref.record).mapM (t.nodeInstructions t.root) := by
  induction hs with
  | nil => rfl
  | @mark _ o m refs items hmem hle hin rest ih =>
    have hread : t.record o = .ok (.leaf m.quoted) := h.reads _ hmem
    have hattr : m.quoted.isAttribute = false := by
      rw [Mark.isAttribute_quoted]
      exact hnodes _ List.mem_cons_self
    have htop : t.topInstructions o = t.nodeInstructions t.root o := by
      rw [topInstructions, hread]
      show (if m.quoted.isAttribute = true then _ else _) = _
      rw [hattr]
      rfl
    rw [List.map_cons, List.mapM_cons, List.mapM_cons, htop,
      ih fun ref href => hnodes ref (List.mem_cons_of_mem _ href)]
  | @element _ o name blocks' inner refs children items hmem hle hvoid inside rest _ ih =>
    have hread : t.record o = .ok (Block.element name blocks' (inner.map Ref.record)).record :=
      h.reads _ hmem
    have htop : t.topInstructions o = t.nodeInstructions t.root o := by
      rw [topInstructions, hread]
      rfl
    rw [List.map_cons, List.mapM_cons, List.mapM_cons, htop,
      ih fun ref href => hnodes ref (List.mem_cons_of_mem _ href)]
  | @fragment _ inner refs children items inside rest ih₁ ih₂ =>
    rw [List.map_append, List.mapM_append, List.mapM_append,
      ih₁ fun ref href => hnodes ref (List.mem_append_left _ href),
      ih₂ fun ref href => hnodes ref (List.mem_append_right _ href)]

theorem Laid.rootRefs (h : t.Laid blocks root doc) : t.rootRefs = .ok (root.map Ref.record) := by
  have hword : t.words[t.root]? = some Tag.root.word := by
    rw [h.words, h.root]
    simp [Block.sizeAll]
  have hread := h.readsRoot
  rw [Recording.rootRefs, if_pos hword]
  rw [record, Record.readAt, hword] at hread
  simp only [Tag.ofWord?_word] at hread
  cases hw : t.words[t.root + 1]? with
  | none => rw [hw] at hread; cases hread
  | some n =>
    rw [hw] at hread
    obtain ⟨row, hrow, heq⟩ := of_map_eq_ok hread
    cases heq
    exact hrow

theorem Laid.compile (h : t.Laid blocks root doc) : t.compile = .ok
    ⟨(Instruction.allWords (Tree.instructionsAll (Item.treesAll doc))).toArray, t.pool,
      t.names⟩ := by
  obtain ⟨nodes, hnodes, hflat⟩ := h.exists_nodes h.shows
  have hcode : t.instructions = .ok (Tree.instructionsAll (Item.treesAll doc)) := by
    rw [instructions, h.rootRefs]
    show Except.bind ((root.map Ref.record).mapM t.topInstructions) _ = _
    rw [h.mapM_topInstructions h.shows h.nodes, hnodes, ← hflat]
    rfl
  rw [Recording.compile, hcode]
  rfl

/-! ### Why the bytecode can be read -/

theorem Laid.known_leaf (h : t.Laid blocks root doc) {o : Nat} {m : Mark Quote}
    (hmem : (o, Block.leaf m.quoted) ∈ Block.placedAll 0 blocks) {name : AttributeName}
    {value : Option Quote} (ha : m.attribute? = some (name, value)) :
    (t.names.attributeText? name).isSome := by
  have := h.known _ hmem
  cases m <;> cases ha <;> exact this

theorem Laid.attributes_sound (h : t.Laid blocks root doc)
    (hs : Shows (t.stock blocks) limit refs items) :
    ∀ a ∈ Item.attributesAll items, (t.names.attributeText? a.1).isSome ∧
      ∀ q ∈ a.2, q.literal.read? t.pool = some q.text := by
  induction hs with
  | nil => intro a ha; cases ha
  | @mark _ o m refs items hmem hle hin rest ih =>
    intro a ha
    rw [Item.attributesAll, Item.attributes] at ha
    rcases List.mem_append.1 ha with ha | ha
    · have hattr : m.attribute? = some a := Option.mem_toList.1 ha
      refine ⟨h.known_leaf hmem hattr, fun q hq => (hin q ?_).read?⟩
      cases m <;> cases hattr <;> exact hq
    · exact ih a ha
  | element hmem hle hvoid inside rest _ ih => exact ih
  | fragment inside rest ih₁ ih₂ =>
    intro a ha
    rw [Item.attributesAll, Item.attributes] at ha
    exact (List.mem_append.1 ha).elim (ih₁ a) (ih₂ a)

theorem Laid.soundAll (h : t.Laid blocks root doc)
    (hs : Shows (t.stock blocks) limit refs items) :
    Tree.SoundAll t.names t.pool (Item.treesAll items) := by
  induction hs with
  | nil => trivial
  | @mark _ o m refs items hmem hle hin rest ih =>
    rw [Item.treesAll, Item.trees]
    refine Tree.SoundAll.append ?_ ih
    cases m with
    | text q => exact ⟨(hin q rfl).read?, trivial⟩
    | raw q => exact ⟨(hin q rfl).read?, trivial⟩
    | _ => trivial
  | @element _ o name blocks' inner refs children items hmem hle hvoid inside rest ih₁ ih₂ =>
    have hname : (t.names.elementText? name).isSome := h.known _ hmem
    have hnil : name.kind.isVoid → Item.treesAll children = [] := fun hv =>
      inside.treesAll_eq_nil_iff.2 (hvoid hv)
    rw [Item.treesAll, Item.trees]
    refine ⟨⟨hname, Group.nodup_gather _, fun g hg => ?_, hnil, ih₁⟩, ih₂⟩
    obtain ⟨⟨value, hmem⟩, hvalues⟩ := Group.mem_gather hg
    refine ⟨(h.attributes_sound inside _ hmem).1, fun q hq => ?_⟩
    exact (h.attributes_sound inside _ (hvalues q hq)).2 q rfl
  | fragment inside rest ih₁ ih₂ =>
    rw [Item.treesAll, Item.trees]
    exact ih₁.append ih₂

end Recording

theorem Recorder.Mirrors.compile_eq {r r' : Recorder} {draft : Draft Quote} {t : Recording}
    (hm : r.Mirrors draft) (hfinish : r.finish = .ok (t, r')) : t.compile = .ok
      ⟨(Instruction.allWords (Tree.instructionsAll draft.trees)).toArray, r.current.pool,
        r.names⟩ := by
  obtain ⟨blocks, refs, _, _, hlaid⟩ := hm.laid hfinish
  obtain ⟨_, _, _, _, hpool, hnames, _⟩ := Recorder.finish_eq_ok hfinish
  rw [hlaid.compile, hpool, hnames]
  rfl

/-- **Every finished recording can be compiled**, and the document spells the trees of the draft
that the recorder mirrors. -/
theorem Recorder.Mirrors.compile {r r' : Recorder} {draft : Draft Quote} {t : Recording}
    (hm : r.Mirrors draft) (hfinish : r.finish = .ok (t, r')) :
    ∃ d : Document, draft.outer = [] ∧ t.compile = .ok d ∧ d.names = draft.names ∧
      d.Spells draft.trees := by
  obtain ⟨blocks, refs, houter, hnames, hlaid⟩ := hm.laid hfinish
  exact ⟨_, houter, hlaid.compile, hnames.symm, rfl, hlaid.soundAll hlaid.shows⟩

/-- A recording that is made by requests is compiled to the trees of the draft that the requests
describe. -/
theorem Recording.MadeBy.compile {t : Recording} {calls : List SpelledCall} (h : t.MadeBy calls) :
    ∃ (draft : Draft Quote) (d : Document),
      Draft.new.requestEach calls = some (draft.map Quote.text) ∧ draft.outer = [] ∧
      t.compile = .ok d ∧ d.names = draft.names ∧ d.Spells draft.trees := by
  obtain ⟨r, r', hreach, hfinish⟩ := h
  obtain ⟨draft, hm, hcalls⟩ := hreach.mirrors
  obtain ⟨d, hcompiled⟩ := hm.compile hfinish
  exact ⟨draft, d, hcalls, hcompiled⟩

end HtmlTape
