import HtmlTape.Proofs.Name.Growth
import HtmlTape.Proofs.Tape.Block

/-!
# The layout of a recording

What holds of the records of a recording among one another and with the pool and the names:

* `Literal.Tiles`: literals follow each other without a gap and fill a text.  Then they form a
  chain from its start to its end (`Literal.Tiles.chain`), and each is a range of the text between
  two characters (`Literal.Tiles.read?_isSome`).
* `Block.RefersBack`: the references of a record lead to complete leaves and elements that end
  before them.
* `Block.Known`: the name of a record has a text.
-/

namespace HtmlTape

namespace Literal

/-- The literals are the ranges of texts that are laid end to end from `offset` on and make up the
whole text. -/
inductive Tiles : Nat → List Literal → String → Prop
  | nil {offset : Nat} : Tiles offset [] ""
  | cons {offset : Nat} {s pool : String} {ls : List Literal}
      (rest : Tiles (offset + s.utf8ByteSize) ls pool) :
      Tiles offset (⟨offset, s.utf8ByteSize⟩ :: ls) (s ++ pool)

/-- The first literal starts at `start`, each further one where the one before it ends, and the
last one ends at `stop`. -/
def Chain (start : Nat) : List Literal → Nat → Prop
  | [], stop => start = stop
  | l :: ls, stop => l.offset = start ∧ Chain (start + l.size) ls stop

namespace Tiles

variable {offset : Nat} {ls ls' : List Literal} {pool pool' : String}

theorem single (offset : Nat) (s : String) : Tiles offset [⟨offset, s.utf8ByteSize⟩] s := by
  have h : Tiles offset [⟨offset, s.utf8ByteSize⟩] (s ++ "") := .cons .nil
  rwa [String.append_empty] at h

theorem append (h : Tiles offset ls pool) (h' : Tiles (offset + pool.utf8ByteSize) ls' pool') :
    Tiles offset (ls ++ ls') (pool ++ pool') := by
  induction h with
  | nil => simpa using h'
  | @cons offset s pool ls _ ih =>
    rw [String.append_assoc]
    refine .cons (ih ?_)
    rw [String.utf8ByteSize_append, ← Nat.add_assoc] at h'
    exact h'

theorem chain (h : Tiles offset ls pool) : Chain offset ls (offset + pool.utf8ByteSize) := by
  induction h with
  | nil => simp [Chain]
  | cons _ ih =>
    rw [String.utf8ByteSize_append, ← Nat.add_assoc]
    exact ⟨rfl, ih⟩

/-- Every literal is a range of the text that the literals fill, wherever that text stands. -/
theorem exists_append (h : Tiles offset ls pool) : ∀ before : String,
    before.utf8ByteSize = offset → ∀ l ∈ ls, ∃ a s b, before ++ pool = a ++ s ++ b ∧
      l = ⟨a.utf8ByteSize, s.utf8ByteSize⟩ := by
  induction h with
  | nil => intro before _ l hl; cases hl
  | @cons offset s pool ls _ ih =>
    intro before hb l hl
    rcases List.mem_cons.1 hl with rfl | hl
    · exact ⟨before, s, pool, by rw [String.append_assoc], by rw [hb]⟩
    · have := ih (before ++ s) (by rw [String.utf8ByteSize_append, hb]) l hl
      rwa [String.append_assoc] at this

/-- **Both ends of every literal lie between two characters** of the text. -/
theorem read?_isSome (h : Tiles 0 ls pool) : ∀ l ∈ ls, (l.read? pool).isSome := by
  intro l hl
  obtain ⟨a, s, b, hp, rfl⟩ := h.exists_append "" rfl l hl
  rw [String.empty_append] at hp
  rw [hp, read?_append]
  rfl

end Tiles

end Literal

namespace Block

def isFragment : Block → Bool
  | .fragment _ => true
  | .leaf _ | .element .. => false

/-- The references of a record, when it is one of `records`, lead to records among them that are
no fragments and that end where the references start, or before. -/
def RefersBack (records : List (Nat × Block)) (p : Nat × Block) : Prop :=
  ∀ ref ∈ (p.2.refsAt p.1).2, ∃ b, (ref, b) ∈ records ∧ b.isFragment = false ∧
    ref + b.size ≤ (p.2.refsAt p.1).1

theorem RefersBack.mono {records records' : List (Nat × Block)} {p : Nat × Block}
    (h : RefersBack records p) (hsub : ∀ q ∈ records, q ∈ records') : RefersBack records' p := by
  intro ref href
  obtain ⟨b, hb, hfrag, hle⟩ := h ref href
  exact ⟨b, hsub _ hb, hfrag, hle⟩

/-- The name of a record, if it has one, has a text. -/
def Known (names : Names) : Block → Prop
  | .leaf (.valued name _) | .leaf (.boolean name) => (names.attributeText? name).isSome
  | .element name _ _ => (names.elementText? name).isSome
  | _ => True

theorem Known.mono {names names' : Names} (hn : names.Extends names') {b : Block}
    (h : b.Known names) : b.Known names' := by
  cases b with
  | leaf l =>
    cases l with
    | valued name value => exact hn.isSome_attr h
    | boolean name => exact hn.isSome_attr h
    | _ => trivial
  | element name inner refs => exact hn.isSome_element h
  | fragment refs => trivial

end Block

end HtmlTape
