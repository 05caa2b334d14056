import HtmlTape.Proofs.Recorder.Flat

/-!
# Closing levels on the flat recorder

Closing a level splices its entries into the words: the flat recorder looks each of them up and
writes references to what it stands for (`FlatRecorder.splice_eq`).  What it writes is what the
level around takes over, and the blank size is filled in where the level began.  So a close is
refused where the recorder refuses it, and beyond that only where the size is no word
(`Recorder.Flattens.closeElement_flat`); it is the same with finishing a document
(`Recorder.Flattens.finish_flat`).  Dropping a fragment cuts off what it has recorded
(`Recorder.Flattens.abortFragment`).
-/

namespace HtmlTape

/-! ### Splicing -/

namespace FlatRecorder

variable {f : FlatRecorder} {start : Nat} {entries : List Entry}

theorem anyExpanded_eq
    (hentries : f.deferred.extract start f.deferred.size = (entries.map Entry.record).toArray)
    (hreads : ∀ entry ∈ entries, entry.ReadsIn f.words) (p : Bool → Bool) :
    f.anyExpanded start (fun record => p (isAttribute f.words record)) =
      (entries.flatMap Entry.refs).any fun ref => p ref.isAttribute := by
  rw [anyExpanded, hentries, List.any_toArray]
  clear hentries
  induction entries with
  | nil => rfl
  | cons entry entries ih =>
    obtain ⟨hentry, hrest⟩ := List.forall_mem_cons.1 hreads
    rw [List.map_cons, List.any_cons, hentry.any_expand p, ih hrest, List.flatMap_cons,
      List.any_append]

/-- Entries are spliced into the words one after another; what was spliced before them does not
change what they stand for. -/
theorem foldl_spliceEntry {words : Array Nat} : ∀ {entries : List Entry},
    (∀ entry ∈ entries, ∀ after, entry.ReadsIn (words ++ after)) →
    ∀ (after : Array Nat) (count : Nat),
      (entries.map Entry.record).foldl spliceEntry (words ++ after, count) =
        (words ++ (after ++ Recorder.refWords (entries.flatMap Entry.refs)),
          count + (entries.flatMap Entry.refs).length) := by
  intro entries
  induction entries with
  | nil => intro _ after count; simp [Recorder.refWords]
  | cons entry entries ih =>
    intro hreads after count
    obtain ⟨hentry, hrest⟩ := List.forall_mem_cons.1 hreads
    have hstep : spliceEntry (words ++ after, count) entry.record =
        (words ++ (after ++ Recorder.refWords entry.refs), count + entry.refs.length) := by
      rw [spliceEntry, (hentry after).expand, List.length_map, ← Array.append_assoc]
      rfl
    rw [List.map_cons, List.foldl_cons, hstep, ih hrest, List.flatMap_cons]
    simp [Recorder.refWords, Nat.add_assoc]

/-- **Splicing** writes the references of the entries, and drops the entries. -/
theorem splice_eq
    (hentries : f.deferred.extract start f.deferred.size = (entries.map Entry.record).toArray)
    (hreads : ∀ entry ∈ entries, ∀ after, entry.ReadsIn (f.words ++ after)) :
    f.splice start = (index (entries.flatMap Entry.refs).length).map fun n => (n, { f with
      words := f.words ++ Recorder.refWords (entries.flatMap Entry.refs)
      deferred := f.deferred.extract 0 start
      counters := { f.counters with
        splices := f.counters.splices + (entries.flatMap Entry.refs).length } }) := by
  have hfold := foldl_spliceEntry hreads #[] 0
  rw [Array.append_empty, Array.empty_append, Nat.zero_add] at hfold
  rw [splice, hentries, List.foldl_toArray, hfold]
  rfl

end FlatRecorder

/-! ### The calls that close a level -/

/-- How many words the element of a level has when it is closed. -/
def Level.extent (level : Level) : Nat := level.words.size + level.refs.length + 5

namespace Recorder

variable {r r' : Recorder} {m : Draft Quote} {parent : Level} {outer : List Level}

def below (r : Recorder) (parent : Level) (outer : List Level) : Recorder :=
  { r with current := parent, outer }

theorem words_eq_below (houter : r.outer = parent :: outer) :
    r.words = (r.below parent outer).words ++ r.current.scope.head ++ r.current.words := by
  rw [Recorder.words, levels, Level.wordsAll_cons, houter]
  rfl

theorem pool_eq_below (houter : r.outer = parent :: outer) :
    r.pool = (r.below parent outer).pool ++ r.current.pool := by
  rw [Recorder.pool, levels, Level.poolAll_cons, houter]
  rfl

theorem own_deferred (r : Recorder) :
    r.flat.deferred.extract r.flat.current.deferredStart r.flat.deferred.size =
      (r.current.entries.toList.map Entry.record).toArray :=
  r.extract_deferred 0

theorem deferred_below (houter : r.outer = parent :: outer) :
    r.flat.deferred.extract 0 r.flat.current.deferredStart =
      (r.below parent outer).flat.deferred := by
  have htake := extract_append_take ((Level.entriesAll r.outer).map Entry.record)
    (r.current.entries.toList.map Entry.record)
  rw [List.length_map, ← List.map_append] at htake
  refine htake.trans ?_
  rw [houter, Level.entriesAll_cons]
  rfl

theorem setIfInBounds_blank (before after : Array Nat) (tag word : Nat) :
    (before ++ (#[tag, 0] ++ after)).setIfInBounds (before.size + 1) word =
      before ++ (#[tag, word] ++ after) := by
  refine Array.ext' ?_
  simp

theorem Flattens.anyExpanded (h : r.Flattens) (p : Bool → Bool) :
    (r.flat.anyExpanded r.flat.current.deferredStart fun record =>
        p (FlatRecorder.isAttribute r.flat.words record)) =
      r.current.refs.any fun ref => p ref.isAttribute := by
  refine FlatRecorder.anyExpanded_eq r.own_deferred (fun entry hentry => ?_) p
  have hread := h.reads entry hentry #[]
  rwa [Array.append_empty] at hread

/-- Splicing the innermost level writes its references behind what was written last. -/
theorem Flattens.splice (h : r.Flattens) {f : FlatRecorder} {after : Array Nat}
    (hwords : f.words = r.words ++ after) (hdeferred : f.deferred = r.flat.deferred) :
    f.splice r.flat.current.deferredStart =
      (index r.current.refs.length).map fun n => (n, { f with
        words := f.words ++ refWords r.current.refs
        deferred := f.deferred.extract 0 r.flat.current.deferredStart
        counters := { f.counters with
          splices := f.counters.splices + r.current.refs.length } }) := by
  refine FlatRecorder.splice_eq (hdeferred ▸ r.own_deferred) fun entry hentry after' => ?_
  rw [hwords, Array.append_assoc]
  exact h.reads entry hentry _

theorem Flattens.closed_words (h : r.Flattens) (houter : r.outer = parent :: outer)
    {name : ElementName} (hscope : r.current.scope = .element name) :
    (r.words ++ refWords r.current.refs ++
        #[r.current.refs.length, Tag.elementEnd.word]).setIfInBounds (r.current.start + 1)
      r.current.extent =
      (r.below parent outer).words ++ elementWords name r.current.words r.current.refs := by
  have hstart : (r.below parent outer).words.size = r.current.start := by
    rw [← h.start, houter]
    rfl
  have hhead : (Scope.element name).head = #[Tag.element.word, 0] ++ #[name.code] := rfl
  have hclosed : elementWords name r.current.words r.current.refs =
      #[Tag.element.word, r.current.extent] ++ #[name.code] ++ r.current.words ++
        refWords r.current.refs ++ #[r.current.refs.length, Tag.elementEnd.word] := rfl
  rw [words_eq_below houter, hscope, ← hstart, hhead, hclosed]
  simp only [Array.append_assoc]
  rw [setIfInBounds_blank]

/-- The end of an element is written on the flat recorder as it is on the level around it. -/
theorem Flattens.endElement (h : r.Flattens) (houter : r.outer = parent :: outer)
    {name : ElementName} (hscope : r.current.scope = .element name) :
    (r.flat.leave (parent.flat outer) (Level.flatAll outer)).endElement r.flat.current =
      checked (r.current.extent ≤ lastWord) (r.current.start, Recorder.flat
        { r.countSplices r.current.refs with
          current := parent.absorb (elementWords name r.current.words r.current.refs)
            r.current.pool (.single r.current.start false)
          outer
          counters := { (r.countSplices r.current.refs).counters with
            elements := r.counters.elements + 1 } }) := by
  have hsize : (r.words ++ refWords r.current.refs ++
      #[r.current.refs.length, Tag.elementEnd.word]).size - r.current.start =
        r.current.extent := by
    have hhere := h.here
    rw [Level.here, hscope] at hhere
    rw [Array.size_append, Array.size_append, hhere]
    simp [Scope.head, refWords, Level.extent]
    omega
  have hsplice := h.splice (f := r.flat.leave (parent.flat outer) (Level.flatAll outer))
    (Array.append_empty.symm : r.words = r.words ++ #[]) rfl
  rw [FlatRecorder.endElement, hsplice]
  rcases Nat.lt_or_ge lastWord r.current.refs.length with hmany | hcount
  · have hlarge : lastWord < r.current.extent :=
      Nat.lt_of_lt_of_le hmany (by rw [Level.extent]; omega)
    rw [index_of_lt hmany, checked_of_not (Nat.not_le_of_lt hlarge)]
    rfl
  · rw [index_of_le hcount]
    show index ((r.words ++ refWords r.current.refs ++
      #[r.current.refs.length, Tag.elementEnd.word]).size - r.current.start) >>= _ = _
    rw [hsize]
    rcases Nat.lt_or_ge lastWord r.current.extent with hlarge | hfits
    · rw [index_of_lt hlarge, checked_of_not (Nat.not_le_of_lt hlarge)]
      rfl
    · rw [index_of_le hfits, checked_of hfits]
      refine congrArg (fun f => Except.ok (r.current.start, f)) ?_
      have habsorb := flatWith_absorb { r.below parent outer with
        counters := { (r.countSplices r.current.refs).counters with
          elements := r.counters.elements + 1 } } []
        (elementWords name r.current.words r.current.refs) r.current.pool
        (.single r.current.start false)
      refine Eq.trans ?_ habsorb.symm
      refine FlatRecorder.ext (h.closed_words houter hscope) (pool_eq_below houter) rfl ?_
        rfl rfl rfl rfl
      exact congrArg (Array.push · _) (deferred_below houter)

theorem Flattens.closeElement_flat (h : r.Flattens) :
    r.flat.closeElement = r.closeElement >>= fun result =>
      checked (r.current.extent ≤ lastWord) (result.1, result.2.flat) := by
  rw [FlatRecorder.closeElement, Recorder.closeElement]
  have hscope : r.flat.current.scope = r.current.scope := rfl
  have houter : r.flat.outer = Level.flatAll r.outer := rfl
  rw [hscope, houter, h.anyExpanded (!·)]
  cases hs : r.current.scope with
  | root | fragment => rfl
  | element name =>
    cases ho : r.outer with
    | nil => rfl
    | cons parent outer =>
      rw [Level.flatAll]
      by_cases hv : name.kind.isVoid ∧ r.current.refs.any (!·.isAttribute)
      · simp only [if_pos hv]
        show r.names.elementText name >>= _ = Except.bind (r.names.elementText name >>= _) _
        cases r.names.elementText name <;> rfl
      · simp only [if_neg hv]
        exact h.endElement ho hs

theorem Flattens.putRow (h : r.Flattens) {f : FlatRecorder} (hwords : f.words = r.words)
    (hdeferred : f.deferred = r.flat.deferred) (tag : Tag) :
    f.putRow tag r.flat.current.deferredStart = index r.words.size >>= fun start =>
      (index r.current.refs.length).map fun n => (start, { f with
        words := r.words ++ (#[tag.word, n] ++ refWords r.current.refs)
        deferred := f.deferred.extract 0 r.flat.current.deferredStart
        counters := { f.counters with
          splices := f.counters.splices + r.current.refs.length } }) := by
  have hsplice := h.splice (f := f.push #[tag.word, 0])
    (congrArg (· ++ #[tag.word, 0]) hwords) hdeferred
  rw [FlatRecorder.putRow, FlatRecorder.here, hsplice, hwords]
  rcases Nat.lt_or_ge lastWord r.words.size with hlarge | hfits
  · rw [index_of_lt hlarge]
    rfl
  · rw [index_of_le hfits]
    show Except.map _ _ >>= _ = Except.map _ _
    cases index r.current.refs.length with
    | error fault => rfl
    | ok n =>
      refine congrArg (fun f => Except.ok (r.words.size, f)) ?_
      refine FlatRecorder.ext ?_ rfl rfl rfl rfl rfl rfl rfl
      show (f.words ++ #[tag.word, 0] ++ refWords r.current.refs).setIfInBounds _ n = _
      rw [hwords, Array.append_assoc, setIfInBounds_blank]

theorem Flattens.endFragment (h : r.Flattens) :
    Tracks (Prod.map id flat) r.flat.endFragment r.endFragment := by
  rw [FlatRecorder.endFragment, Recorder.endFragment]
  have hscope : r.flat.current.scope = r.current.scope := rfl
  have houter : r.flat.outer = Level.flatAll r.outer := rfl
  rw [hscope, houter]
  cases hs : r.current.scope with
  | root | element => exact .inr rfl
  | fragment =>
    cases ho : r.outer with
    | nil => exact .inr rfl
    | cons parent outer =>
      have hrow := h.putRow (f := r.flat.leave (parent.flat outer) (Level.flatAll outer)) rfl rfl
        .fragment
      rw [Level.flatAll]
      simp only
      rw [hrow, bind_assoc]
      refine .index ?_
      rcases Nat.lt_or_ge lastWord r.current.refs.length with hmany | hcount
      · rw [index_of_lt hmany]
        exact .inl rfl
      · rw [index_of_le hcount]
        have habsorb := flatWith_absorb { r.below parent outer with
          counters := { (r.countSplices r.current.refs).counters with
            fragments := r.counters.fragments + 1 } } []
          (r.current.words ++ #[Tag.fragment.word, r.current.refs.length] ++
            refWords r.current.refs) r.current.pool ⟨r.current.here, r.current.refs⟩
        refine .ok (Prod.ext h.here ?_)
        refine Eq.trans ?_ habsorb.symm
        refine FlatRecorder.ext ?_ (pool_eq_below ho) rfl ?_ rfl rfl rfl rfl
        · show r.words ++ _ = _
          rw [words_eq_below ho, hs, Array.append_assoc, Array.append_assoc,
            Array.append_assoc]
          exact congrArg _ (Array.empty_append)
        · rw [← h.here]
          exact congrArg (Array.push · _) (deferred_below ho)

theorem Flattens.abortFragment (h : r.Flattens) :
    r.flat.abortFragment = r.abortFragment.map flat := by
  rw [FlatRecorder.abortFragment, Recorder.abortFragment]
  have hscope : r.flat.current.scope = r.current.scope := rfl
  have houter : r.flat.outer = Level.flatAll r.outer := rfl
  rw [hscope, houter]
  cases hs : r.current.scope with
  | root | element => rfl
  | fragment =>
    cases ho : r.outer with
    | nil => rfl
    | cons parent outer =>
      have hpool : (Literal.mk 0 r.current.poolStart).read r.pool =
          .ok (r.below parent outer).pool := by
        have hread := Literal.read?_append "" (r.below parent outer).pool r.current.pool
        have hstart : (r.below parent outer).pool.utf8ByteSize = r.current.poolStart := by
          rw [← h.poolStart, ho]
          rfl
        rw [String.empty_append, ← pool_eq_below ho, hstart] at hread
        have hread : (Literal.mk 0 r.current.poolStart).read? r.pool =
            some (r.below parent outer).pool := hread
        rw [Literal.read, hread]
      have hwords : r.words.extract 0 r.current.start = (r.below parent outer).words := by
        have hstart : (r.below parent outer).words.size = r.current.start := by
          rw [← h.start, ho]
          rfl
        rw [words_eq_below ho, ← hstart, Array.append_assoc, Array.extract_append_left,
          Array.extract_size]
      rw [Level.flatAll]
      show (Literal.mk 0 r.current.poolStart).read r.pool >>= _ = _
      rw [hpool]
      exact congrArg Except.ok
        (FlatRecorder.ext hwords rfl rfl (deferred_below ho) rfl rfl rfl rfl)

theorem Flattens.words_eq_root (h : r.Flattens) (houter : r.outer = []) :
    r.words = r.current.words := by
  rw [Recorder.words, levels, Level.wordsAll_cons, h.root.2 houter, houter]
  simp [Level.wordsAll, Scope.head]

theorem pool_eq_root (houter : r.outer = []) : r.pool = r.current.pool := by
  rw [Recorder.pool, levels, Level.poolAll_cons, houter]
  exact String.empty_append

/-- **Finishing** is refused, or comes to the same recording, if there are offsets for it. -/
theorem Flattens.finish_flat (h : r.Flattens) :
    r.flat.finish = r.finish >>= fun result =>
      checked (r.words.size ≤ lastWord ∧ r.current.refs.length ≤ lastWord)
        (result.1, result.2.flat) := by
  rw [FlatRecorder.finish, Recorder.finish]
  by_cases ho : r.outer = []
  · have hflat : r.flat.outer = [] := by
      show Level.flatAll r.outer = []
      rw [ho]
      rfl
    have hstart : r.flat.current.deferredStart = 0 := by
      show (Level.entriesAll r.outer).length = 0
      rw [ho]
      rfl
    have hany := h.anyExpanded (·)
    have hrow := h.putRow (f := r.flat) rfl rfl .root
    rw [hstart] at hany hrow
    rw [if_neg (not_not_intro hflat), if_neg (not_not_intro ho), hany, hrow]
    by_cases hattr : r.current.refs.any Ref.isAttribute
    · simp only [if_pos hattr]
      rfl
    · simp only [if_neg hattr]
      rw [h.words_eq_root ho]
      show _ = checked _ _
      rcases Nat.lt_or_ge lastWord r.current.words.size with hlarge | hfits
      · rw [index_of_lt hlarge, checked_of_not fun hfits => Nat.not_le_of_lt hlarge hfits.1]
        rfl
      · rw [index_of_le hfits]
        rcases Nat.lt_or_ge lastWord r.current.refs.length with hmany | hcount
        · rw [index_of_lt hmany, checked_of_not fun hfits => Nat.not_le_of_lt hmany hfits.2]
          rfl
        · rw [index_of_le hcount, checked_of ⟨hfits, hcount⟩, ← pool_eq_root ho,
            Array.append_assoc]
          rfl
  · have hflat : r.flat.outer ≠ [] := by
      show Level.flatAll r.outer ≠ []
      rw [← List.length_pos_iff, flatAll_length]
      exact List.length_pos_iff.2 ho
    have hlength : r.flat.outer.length = r.outer.length := flatAll_length _
    have hname : r.flat.innermostName = r.innermostName := rfl
    rw [if_pos hflat, if_pos ho, hlength, hname]
    cases r.innermostName <;> rfl

end Recorder

end HtmlTape
