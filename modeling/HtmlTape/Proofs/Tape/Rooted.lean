import HtmlTape.Proofs.Tape.Owned
import Mathlib.Data.List.Perm.Basic
import Mathlib.Logic.Relation

/-!
# Following references

An element owns the records that its references lead to (`Block.Owns`).  Where references lead back
only, what a record owns ends before the record does, so nobody owns itself, not even by way of
others (`Block.not_transGen_owns`).

A row of offsets that has the references of the root, and with every record the records it owns, is
determined by that: any two such rows have the same offsets, each as often
(`Block.perm_of_owned`).  One such row are the offsets of all records of a recording, if every
record has one owner; another are the offsets that are met when the references are followed from
the root.
-/

namespace HtmlTape

theorem flatMap_filter_of_nil {α β : Type} {p : α → Bool} {g : α → List β} (as : List α)
    (h : ∀ a ∈ as, p a = false → g a = []) : (as.filter p).flatMap g = as.flatMap g := by
  induction as with
  | nil => rfl
  | cons a as ih =>
    have hrest := ih fun b hb => h b (List.mem_cons_of_mem _ hb)
    cases hp : p a with
    | true => rw [List.filter_cons_of_pos hp, List.flatMap_cons, List.flatMap_cons, hrest]
    | false =>
      rw [List.filter_cons_of_neg (by simp [hp]), List.flatMap_cons, hrest,
        h a List.mem_cons_self hp, List.nil_append]

section Ranked

variable {own : Nat → List Nat} {rank : Nat → Nat} {roots as bs : List Nat}

/-- The offsets of a rank or above are owned by roots and by offsets of a higher rank. -/
theorem perm_filter_of_owned (h : as.Perm (roots ++ as.flatMap own))
    (hrank : ∀ o ∈ as, ∀ o' ∈ own o, rank o' < rank o) (n : Nat) :
    (as.filter (n ≤ rank ·)).Perm (roots.filter (n ≤ rank ·) ++
      (as.filter (n + 1 ≤ rank ·)).flatMap fun o => (own o).filter (n ≤ rank ·)) := by
  have hlow : ∀ o ∈ as, decide (n + 1 ≤ rank o) = false → (own o).filter (n ≤ rank ·) = [] := by
    intro o ho hle
    refine List.filter_eq_nil_iff.2 fun o' ho' => ?_
    have hlt := hrank o ho o' ho'
    simp only [decide_eq_false_iff_not, decide_eq_true_eq] at hle ⊢
    omega
  rw [flatMap_filter_of_nil as hlow, ← List.filter_flatMap, ← List.filter_append]
  exact h.filter _

/-- **Offsets are determined by the roots and by what each of them owns**, where owners have a
higher rank. -/
theorem perm_of_owned {bound : Nat} (ha : as.Perm (roots ++ as.flatMap own))
    (hb : bs.Perm (roots ++ bs.flatMap own))
    (harank : ∀ o ∈ as, rank o < bound ∧ ∀ o' ∈ own o, rank o' < rank o)
    (hbrank : ∀ o ∈ bs, rank o < bound ∧ ∀ o' ∈ own o, rank o' < rank o) : as.Perm bs := by
  -- from the highest rank downwards
  have hdown : ∀ k n, bound ≤ n + k → (as.filter (n ≤ rank ·)).Perm (bs.filter (n ≤ rank ·)) := by
    intro k
    induction k with
    | zero =>
      intro n hn
      have hnone : ∀ {cs : List Nat}, (∀ o ∈ cs, rank o < bound ∧ ∀ o' ∈ own o, rank o' < rank o) →
          cs.filter (n ≤ rank ·) = [] := by
        intro cs hcs
        refine List.filter_eq_nil_iff.2 fun o ho => ?_
        have hlt := (hcs o ho).1
        simp only [decide_eq_true_eq]
        omega
      rw [hnone harank, hnone hbrank]
    | succ k ih =>
      intro n hn
      have habove := ih (n + 1) (by omega)
      have hleft := perm_filter_of_owned ha (fun o ho => (harank o ho).2) n
      have hright := perm_filter_of_owned hb (fun o ho => (hbrank o ho).2) n
      exact hleft.trans (((habove.flatMap_right _).append_left _).trans hright.symm)
  have hall := hdown bound 0 (Nat.le_add_left _ _)
  rwa [List.filter_eq_self.2 (by simp), List.filter_eq_self.2 (by simp)] at hall

end Ranked

namespace Block

/-- The record at the first offset owns the record at the second. -/
def Owns (records : List (Nat × Block)) (o o' : Nat) : Prop :=
  ∃ b, (o, b) ∈ records ∧ o' ∈ b.owned

/-- The references to what the record at an offset owns. -/
def ownedAt (records : List (Nat × Block)) (o : Nat) : List Nat :=
  ((records.lookup o).map owned).getD []

def stopAt (records : List (Nat × Block)) (o : Nat) : Nat :=
  o + ((records.lookup o).map size).getD 0

section Placed

variable {offset o o' : Nat} {blocks : List Block} {b : Block}

theorem lookup_placedAll (h : (o, b) ∈ placedAll offset blocks) :
    (placedAll offset blocks).lookup o = some b := by
  obtain ⟨before, after, hsplit⟩ := List.append_of_mem h
  have hnodup := nodup_placedAll blocks offset
  rw [hsplit, List.map_append, List.nodup_append] at hnodup
  refine List.lookup_eq_some_iff.2 ⟨before, after, hsplit, fun p hp => ?_⟩
  have hne := hnodup.2.2 p.1 (List.mem_map_of_mem hp) o (by simp)
  simpa using Ne.symm hne

theorem ownedAt_eq (h : (o, b) ∈ placedAll offset blocks) :
    ownedAt (placedAll offset blocks) o = b.owned := by
  rw [ownedAt, lookup_placedAll h]
  rfl

theorem stopAt_eq (h : (o, b) ∈ placedAll offset blocks) :
    stopAt (placedAll offset blocks) o = o + b.size := by
  rw [stopAt, lookup_placedAll h]
  rfl

/-- All references of elements are those of the records at the offsets. -/
theorem flatMap_ownedAt (offset : Nat) (blocks : List Block) :
    (offsets offset blocks).flatMap (ownedAt (placedAll offset blocks)) =
      ownedAll offset blocks := by
  rw [offsets, List.flatMap_map]
  have hfragment : ∀ p ∈ placedAll offset blocks, (!p.2.isFragment) = false →
      ownedAt (placedAll offset blocks) p.1 = [] := by
    intro p hp hfrag
    rw [ownedAt_eq hp]
    cases hb : p.2 with
    | fragment refs => rfl
    | leaf l => rfl
    | element name inner refs => simp [hb, isFragment] at hfrag
  rw [flatMap_filter_of_nil _ hfragment]
  exact List.flatMap_congr fun p hp => ownedAt_eq hp

/-- **What a record owns ends before the record does**, where references lead back. -/
theorem stopAt_lt
    (hrefers : ∀ p ∈ placedAll offset blocks, RefersBack (placedAll offset blocks) p)
    (h : Owns (placedAll offset blocks) o o') :
    stopAt (placedAll offset blocks) o' < stopAt (placedAll offset blocks) o := by
  obtain ⟨b, hb, ho'⟩ := h
  cases b with
  | leaf l => cases ho'
  | fragment refs => cases ho'
  | element name inner refs =>
    obtain ⟨b', hb', _, hle⟩ := hrefers _ hb o' ho'
    rw [stopAt_eq hb, stopAt_eq hb', size_element]
    simp only [refsAt] at hle
    omega

theorem stopAt_bounds
    (hrefers : ∀ p ∈ placedAll offset blocks, RefersBack (placedAll offset blocks) p)
    (hb : (o, b) ∈ placedAll offset blocks) :
    stopAt (placedAll offset blocks) o < offset + sizeAll blocks + 1 ∧
      ∀ o' ∈ ownedAt (placedAll offset blocks) o,
        stopAt (placedAll offset blocks) o' < stopAt (placedAll offset blocks) o := by
  refine ⟨?_, fun o' ho' => stopAt_lt hrefers ⟨b, hb, ?_⟩⟩
  · have hbounds := (bounds_of_mem_placedAll blocks hb).2
    rw [stopAt_eq hb]
    exact Nat.lt_succ_of_le hbounds
  · rwa [ownedAt_eq hb] at ho'

/-- **No record owns itself**, not even by way of others. -/
theorem not_transGen_owns
    (hrefers : ∀ p ∈ placedAll offset blocks, RefersBack (placedAll offset blocks) p) (o : Nat) :
    ¬ Relation.TransGen (Owns (placedAll offset blocks)) o o := by
  have hstop : ∀ {o o'}, Relation.TransGen (Owns (placedAll offset blocks)) o o' →
      stopAt (placedAll offset blocks) o' < stopAt (placedAll offset blocks) o := by
    intro o o' h
    induction h with
    | single h => exact stopAt_lt hrefers h
    | tail _ h ih => exact Nat.lt_trans (stopAt_lt hrefers h) ih
  exact fun h => Nat.lt_irrefl _ (hstop h)

end Placed

end Block

end HtmlTape
