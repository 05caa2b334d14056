import HtmlTape.Proofs.Recorder.Mirror
import HtmlTape.Proofs.Tape.Dumped
import HtmlTape.Recorder.Flat

/-!
# Looking entries up in the words

The flat recorder keeps the offsets of its entries only.  What an entry stands for, and which of
it is an attribute, it reads in the words.  The words tell it the same as the entries of a level
do (`Recorder.Mirrors.reads`), because each complete record reads back from the words of the open
levels (`Stands.readAt`).
-/

namespace HtmlTape

/-! ### First words -/

theorem Tag.word_of_ofWord? {w : Nat} {t : Tag} (h : Tag.ofWord? w = some t) : w = t.word := by
  unfold ofWord? at h
  split at h <;> cases h <;> rfl

theorem Tag.word_inj {t t' : Tag} : t.word = t'.word ↔ t = t' := by
  refine ⟨fun h => ?_, congrArg _⟩
  have hsome : some t = some t' := by rw [← Tag.ofWord?_word, h, Tag.ofWord?_word]
  cases hsome
  rfl

theorem Record.word_of_readAt {words : Array Nat} {o : Nat} {r : Record}
    (h : readAt words o = .ok r) : words[o]? = some r.tag.word := by
  rw [readAt] at h
  split at h
  · cases h
  · rename_i w hw
    rw [hw]
    refine congrArg some ?_
    split at h
    case h_6 htag _ _ | h_7 htag _ | h_8 htag _ =>
      obtain ⟨_, _, rfl⟩ := of_map_eq_ok h
      exact Tag.word_of_ofWord? htag
    case h_9 | h_10 | h_11 => cases h
    all_goals
      cases h
      exact Tag.word_of_ofWord? (by assumption)

theorem Record.row_of_readAt {words : Array Nat} {o : Nat} {refs : List Nat}
    (h : readAt words o = .ok (.fragment refs)) :
    ∃ n, words[o + 1]? = some n ∧ (words.extract (o + 2) (o + 2 + n)).toList = refs := by
  have hrow : rowAt words o = .ok refs := by
    rw [readAt] at h
    split at h
    · cases h
    · split at h <;> try cases h
      case h_7 =>
        obtain ⟨_, hrow, he⟩ := of_map_eq_ok h
        cases he
        exact hrow
      all_goals
        obtain ⟨_, _, he⟩ := of_map_eq_ok h
        cases he
  rw [rowAt] at hrow
  split at hrow
  · rename_i n hn
    split at hrow
    · cases hrow
      exact ⟨n, hn, rfl⟩
    · cases hrow
  · cases hrow

namespace FlatRecorder

variable {words : Array Nat} {o : Nat} {b : Block}

theorem isAttribute_of_readAt (h : Record.readAt words o = .ok b.record) :
    isAttribute words o = b.record.isAttribute := by
  rw [isAttribute, Record.word_of_readAt h]
  cases b with
  | leaf l => cases l <;> rfl
  | element | fragment => rfl

theorem expand_of_readAt (h : Record.readAt words o = .ok b.record)
    (hfragment : b.isFragment = false) : expand words o = [o] := by
  rw [expand, Record.word_of_readAt h, if_neg]
  rw [Option.some.injEq, Tag.word_inj]
  cases b with
  | leaf l => cases l <;> simp [Block.record, Record.tag, Leaf.tag]
  | element => simp [Block.record, Record.tag]
  | fragment => cases hfragment

theorem expand_fragment {refs : List Nat}
    (h : Record.readAt words o = .ok (Block.fragment refs).record) : expand words o = refs := by
  obtain ⟨n, hn, hrow⟩ := Record.row_of_readAt h
  have hword : words[o]? = some Tag.fragment.word := Record.word_of_readAt h
  rw [expand, if_pos hword, hn]
  exact hrow

end FlatRecorder

/-! ### Entries -/

/-- The words tell of the entry what the entry tells itself. -/
structure Entry.ReadsIn (entry : Entry) (words : Array Nat) : Prop where
  expand : FlatRecorder.expand words entry.record = entry.refs.map Ref.record
  kinds : ∀ ref ∈ entry.refs, FlatRecorder.isAttribute words ref.record = ref.isAttribute

/-- Some record that the entry stands for passes a test where one of its references does. -/
theorem Entry.ReadsIn.any_expand {entry : Entry} {words : Array Nat} (h : entry.ReadsIn words)
    (p : Bool → Bool) : ((FlatRecorder.expand words entry.record).any fun record =>
      p (FlatRecorder.isAttribute words record)) = entry.refs.any fun ref => p ref.isAttribute :=
  calc
    _ = (entry.refs.map fun ref => FlatRecorder.isAttribute words ref.record).any p := by
      rw [h.expand, List.any_map, List.any_map]
      rfl
    _ = (entry.refs.map Ref.isAttribute).any p := by rw [List.map_congr_left h.kinds]
    _ = _ := List.any_map

theorem Entry.StandsFor.readsIn {entry : Entry} {k : Stock} {item : Item Quote}
    {words : Array Nat} (h : entry.StandsFor k item)
    (hreads : ∀ p ∈ k.records, Record.readAt words p.1 = .ok p.2.record) :
    entry.ReadsIn words := by
  constructor
  · cases h.leads with
    | single hmem hfragment => exact FlatRecorder.expand_of_readAt (hreads _ hmem) hfragment
    | fragment hmem => exact FlatRecorder.expand_fragment (hreads _ hmem)
  · intro ref href
    obtain ⟨b, hmem, _, hkind⟩ := h.shows.kinds ref href
    rw [← hkind]
    exact FlatRecorder.isAttribute_of_readAt (hreads _ hmem)

/-- **Every complete record reads back** from the words of the open levels, whatever comes after
them. -/
theorem Stands.readAt {names : Names} {levels : List Level} {sheets : List (Sheet Quote)}
    {k : Stock} (h : Stands names levels sheets k) : ∀ (after : Array Nat), ∀ p ∈ k.records,
    Record.readAt (Level.wordsAll levels ++ after) p.1 = .ok p.2.record := by
  induction h with
  | nil => intro after p hp; cases hp
  | @cons level outer sheet sheets k blocks below _ _ holds ih =>
    intro after p hp
    rw [Level.wordsAll_cons]
    rcases List.mem_append.1 hp with hp | hp
    · rw [Array.append_assoc, Array.append_assoc]
      exact ih _ p hp
    · have hhere : (Level.wordsAll outer ++ level.scope.head).toList.length =
          (k.enter level.scope).here := by
        rw [Array.length_toList, Array.size_append, below.ends.1]
        rfl
      rw [← hhere] at hp
      have hwords : Level.wordsAll outer ++ level.scope.head ++ level.words ++ after =
          ((Level.wordsAll outer ++ level.scope.head).toList ++ Block.wordsAll blocks ++
            after.toList).toArray := Array.ext' (by simp [holds.words])
      rw [hwords]
      exact Block.readAt_of_mem_placedAll blocks _ _ p hp

end HtmlTape
