import HtmlTape.Proofs.Name.Sound
import HtmlTape.Proofs.Recorder.Finished
import HtmlTape.Proofs.Tape.Dumped
import HtmlTape.Proofs.Text.Entry
import HtmlTape.Proofs.Text.Escaped

/-!
# The format of recordings

Whatever requests a recording was made by, its words are complete records laid end to end, with
one root record behind them; every reference leads back to a complete record that is no fragment;
and the literals of the records, in the order of the words, fill the pool from its start to its
end (`Recording.Formed`).  A dump of such a recording reads to the end: it has a line for each
record and one for the references of each element (`Recording.formed_of_madeBy`).
-/

namespace HtmlTape

/-- The recording is made of the blocks and of a root record with the references `refs`. -/
structure Recording.Formed (t : Recording) (blocks : List Block) (refs : List Nat) : Prop where
  words : t.words.toList = Block.wordsAll blocks ++ ([Tag.root.word, refs.length] ++ refs)
  root : t.root = Block.sizeAll blocks
  /-- Every record is read back at its offset, and so is the root record. -/
  reads : ∀ p ∈ Block.placedAll 0 blocks, t.record p.1 = .ok p.2.record
  readsRoot : t.record t.root = .ok (.root refs)
  /-- References lead to complete records that end before them. -/
  refers : ∀ p ∈ Block.placedAll 0 blocks, Block.RefersBack (Block.placedAll 0 blocks) p
  refersRoot : ∀ ref ∈ refs, ∃ b, (ref, b) ∈ Block.placedAll 0 blocks ∧
    b.isFragment = false ∧ ref + b.size ≤ t.root
  /-- The literals follow each other from the start of the pool to its end. -/
  chain : Literal.Chain 0 (Block.literals 0 blocks) t.pool.utf8ByteSize
  /-- Both ends of a literal lie between two characters of the pool. -/
  bounds : ∀ l ∈ Block.literals 0 blocks, (l.read? t.pool).isSome

theorem Record.readAt_root (before refs : List Nat) :
    readAt (before ++ ([Tag.root.word, refs.length] ++ refs)).toArray before.length =
      .ok (.root refs) := by
  have h₀ : (before ++ ([Tag.root.word, refs.length] ++ refs)).toArray[before.length]? =
      some Tag.root.word := by
    simp
  have h₁ : (before ++ ([Tag.root.word, refs.length] ++ refs)).toArray[before.length + 1]? =
      some refs.length := by
    simp
  have hrow : rowAt (before ++ ([Tag.root.word, refs.length] ++ refs)).toArray before.length =
      .ok refs := by
    rw [rowAt, h₁]
    simp only
    rw [if_pos (by simp; omega)]
    refine congrArg Except.ok ?_
    have := Block.extract_toArray_append (before ++ [Tag.root.word, refs.length]) refs []
      (i := before.length + 2) (j := before.length + 2 + refs.length) (by simp) (by simp)
    rwa [List.append_nil, List.append_assoc] at this
  rw [readAt, h₀, h₁]
  simp only [Tag.ofWord?_word]
  rw [hrow]
  rfl

namespace Recording

variable {t : Recording} {blocks : List Block} {refs : List Ref} {items : List (Item Quote)}

theorem Laid.words_toList (h : t.Laid blocks refs items) : t.words.toList =
    Block.wordsAll blocks ++ ([Tag.root.word, (refs.map Ref.record).length] ++
      refs.map Ref.record) := by
  rw [h.words, List.length_map, ← List.append_assoc]

theorem Laid.reads (h : t.Laid blocks refs items) :
    ∀ p ∈ Block.placedAll 0 blocks, t.record p.1 = .ok p.2.record := by
  intro p hp
  have := Block.readAt_of_mem_placedAll blocks []
    ([Tag.root.word, (refs.map Ref.record).length] ++ refs.map Ref.record) p hp
  rwa [List.nil_append, ← h.words_toList] at this

theorem Laid.readsRoot (h : t.Laid blocks refs items) :
    t.record t.root = .ok (.root (refs.map Ref.record)) := by
  have := Record.readAt_root (Block.wordsAll blocks) (refs.map Ref.record)
  rw [← h.words_toList] at this
  rw [h.root]
  exact this

theorem Laid.formed (h : t.Laid blocks refs items) : t.Formed blocks (refs.map Ref.record) where
  words := h.words_toList
  root := h.root
  reads := h.reads
  readsRoot := h.readsRoot
  refers := h.refers
  refersRoot := by
    intro o ho
    obtain ⟨ref, href, rfl⟩ := List.mem_map.1 ho
    exact h.shows.refers ref href
  chain := by
    have := h.tiles.chain
    rwa [Nat.zero_add] at this
  bounds := h.tiles.read?_isSome

/-! ### Dumps -/

theorem exists_quotedLiteral {l : Literal} (h : (l.read? t.pool).isSome) :
    ∃ s : String, t.quotedLiteral l = .ok s ∧ '\n' ∉ s.toList := by
  obtain ⟨s, hs⟩ := Option.isSome_iff_exists.1 h
  exact ⟨Text.quoted s.toList, by rw [quotedLiteral, Literal.read, hs]; rfl,
    Text.lineFeed_notMem_quoted _⟩

theorem exists_describe (hsound : t.names.Sound) {b : Block} (hknown : b.Known t.names)
    (hread : ∀ l ∈ b.literal?, (l.read? t.pool).isSome) :
    ∃ rest : String, t.describe b.record = .ok (b.record.tag.label ++ rest) ∧
      '\n' ∉ rest.toList := by
  cases b with
  | element name inner refs =>
    refine ⟨" " ++ t.names.tag name ++ s!" len={(Block.element name inner refs).size}", ?_, ?_⟩
    · rw [Block.record, describe, Names.elementText_eq hknown]
      simp only [Block.size_element, String.append_assoc]
      rfl
    · have hname := hsound.lineFeed_notMem_tag name
      have hsize := Text.lineFeed_notMem_toString (Block.element name inner refs).size
      simpa [toString, hname] using hsize
  | fragment refs =>
    refine ⟨" refs=" ++ Text.numberList refs, ?_, ?_⟩
    · rw [Block.record, describe, String.append_assoc]
      rfl
    · simpa using Text.lineFeed_notMem_numberList refs
  | leaf l =>
    cases l with
    | text l | raw l =>
      obtain ⟨s, hs, hfree⟩ := exists_quotedLiteral (hread l rfl)
      refine ⟨" " ++ s, ?_, by simpa using hfree⟩
      rw [Block.record, describe, hs]
      simp [Except.map, Record.tag, Leaf.tag, String.append_assoc]
    | doctype => exact ⟨"", rfl, List.not_mem_nil⟩
    | valued name l =>
      obtain ⟨s, hs, hfree⟩ := exists_quotedLiteral (hread l rfl)
      refine ⟨" " ++ t.names.attr name ++ "=" ++ s, ?_, ?_⟩
      · rw [Block.record, describe, Names.attributeText_eq hknown, hs]
        simp [Bind.bind, Except.bind, Pure.pure, Except.pure, Record.tag, Leaf.tag,
          String.append_assoc]
      · simp [hsound.lineFeed_notMem_attr name, hfree]
    | boolean name =>
      refine ⟨" " ++ t.names.attr name, ?_, by simpa using hsound.lineFeed_notMem_attr name⟩
      rw [Block.record, describe, Names.attributeText_eq hknown]
      simp [Except.map, Record.tag, Leaf.tag, String.append_assoc]

theorem isEntry_line (offset : Nat) (tag : Tag) {rest : String} (h : '\n' ∉ rest.toList) :
    Text.IsEntry offset tag.label (line offset (tag.label ++ rest)) := by
  refine Text.isEntry_column ?_
  have hlabel : '\n' ∉ tag.label.toList := by cases tag <;> decide
  simpa [hlabel] using h

theorem isEntry_refs (offset : Nat) (refs : List Nat) :
    Text.IsEntry offset "REFS" (line offset ("REFS " ++ Text.numberList refs)) := by
  have hfree := Text.lineFeed_notMem_numberList refs
  have htext : "REFS " ++ Text.numberList refs = "REFS" ++ (" " ++ Text.numberList refs) := by
    rw [← String.append_assoc]
    rfl
  rw [htext]
  exact Text.isEntry_column (by simpa using hfree)

/-- What a dump meets in a recording has a line, an entry with its offset and its label. -/
theorem Laid.exists_rowLine (h : t.Laid blocks refs items) (hsound : t.names.Sound) :
    ∀ row ∈ Block.rowsAll 0 blocks ++ [DumpRow.record t.root (.root (refs.map Ref.record))],
      ∃ s, t.rowLine row = .ok s ∧ Text.IsEntry row.offset row.label s := by
  intro row hrow
  rcases List.mem_append.1 hrow with hrow | hrow
  · rcases Block.mem_rowsAll blocks hrow with ⟨o, refs, rfl⟩ | ⟨p, hp, rfl⟩
    · exact ⟨_, rfl, isEntry_refs o refs⟩
    · have hread : ∀ l ∈ p.2.literal?, (l.read? t.pool).isSome := fun l hl =>
        h.tiles.read?_isSome l (List.mem_filterMap.2 ⟨p, hp, hl⟩)
      obtain ⟨rest, htext, hfree⟩ := exists_describe hsound (h.known p hp) hread
      exact ⟨_, by rw [rowLine, htext]; rfl, isEntry_line p.1 _ hfree⟩
  · obtain rfl := List.mem_singleton.1 hrow
    have hfree := Text.lineFeed_notMem_numberList (refs.map Ref.record)
    have hroot : '\n' ∉ (" refs=" ++ Text.numberList (refs.map Ref.record)).toList := by
      simpa using hfree
    refine ⟨_, ?_, isEntry_line t.root .root hroot⟩
    rw [rowLine, describe, ← String.append_assoc]
    rfl

/-- The dump of a whole recording has the lines of its blocks and one for the root record. -/
theorem Laid.dumpFrom_zero (h : t.Laid blocks refs items) : t.dumpFrom 0 [] =
    (Block.rowsAll 0 blocks ++
      [DumpRow.record t.root (.root (refs.map Ref.record))]).mapM t.rowLine := by
  have hsize : t.words.size = t.root + (2 + refs.length) := by
    rw [h.root, ← Array.length_toList, h.words_toList]
    simp [Block.sizeAll]
    omega
  have hblocks : t.Dumps 0 [] (Block.rowsAll 0 blocks) t.root [] := by
    have : t.Dumps 0 [] _ (0 + Block.sizeAll blocks) [] :=
      dumps_blocks blocks (by rw [Nat.zero_add, ← h.root]; omega) h.reads (by simp)
    rwa [Nat.zero_add, ← h.root] at this
  refine (hblocks.append (.record (by omega) h.readsRoot (by simp))).dumpFrom_eq ?_
  exact Nat.le_of_eq (by rw [hsize, Record.headSize, List.length_map])

/-- A dump of the recording: a line for each record and for the references of each element. -/
structure Dumped (t : Recording) (blocks : List Block) (refs : List Nat)
    (lines : List String) : Prop where
  rows : (Block.rowsAll 0 blocks ++ [DumpRow.record t.root (.root refs)]).mapM t.rowLine = .ok lines
  reads : t.dumpFrom 0 [] = .ok lines
  dump : t.dump = .ok (String.join lines)
  count : lines.length = (Block.placedAll 0 blocks).length +
    (Block.placedAll 0 blocks).countP (fun p => p.2.isElement) + 1
  /-- A line tells the offset and the label of its row, and ends in its only line feed. -/
  entries : List.Forall₂ (fun row line => Text.IsEntry row.offset row.label line)
    (Block.rowsAll 0 blocks ++ [DumpRow.record t.root (.root refs)]) lines
  lineFeeds : (String.join lines).toList.count '\n' = lines.length

theorem Laid.dumped (h : t.Laid blocks refs items) (hsound : t.names.Sound) :
    ∃ lines, t.Dumped blocks (refs.map Ref.record) lines := by
  obtain ⟨lines, hlines, hentries⟩ := exists_mapM_eq_ok _ (h.exists_rowLine hsound)
  have hdump : t.dumpFrom 0 [] = .ok lines := h.dumpFrom_zero.trans hlines
  refine ⟨lines, hlines, hdump, ?_, ?_, hentries, Text.count_lineFeed_join hentries⟩
  · rw [dump, hdump]
    rfl
  · rw [← hentries.length_eq, List.length_append, Block.length_rowsAll]
    rfl

/-- **Every finished recording is made of complete records**, with references that lead back and
literals that fill the pool; its dump has a line for each record and each list of references. -/
theorem formed_of_madeBy {calls : List SpelledCall} (h : t.MadeBy calls) :
    ∃ (blocks : List Block) (refs : List Nat) (lines : List String),
      t.Formed blocks refs ∧ t.Dumped blocks refs lines := by
  obtain ⟨draft, blocks, refs, hcalls, _, hnames, hlaid⟩ := h.laid
  have hsound : t.names.Sound := hnames ▸ (Draft.names_sound hcalls : (draft.map _).names.Sound)
  obtain ⟨lines, hdumped⟩ := hlaid.dumped hsound
  exact ⟨blocks, _, lines, hlaid.formed, hdumped⟩

theorem card_formed : card.MadeBy cardCalls ∧
    ∃ (blocks : List Block) (refs : List Nat) (lines : List String),
      card.Formed blocks refs ∧ card.Dumped blocks refs lines :=
  ⟨card_madeBy, formed_of_madeBy card_madeBy⟩

end Recording

end HtmlTape
