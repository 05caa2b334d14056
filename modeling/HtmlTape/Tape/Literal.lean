import HtmlTape.Fault

/-!
# Literals

The texts and attribute values of a document lie one after another in a pool. A literal names
one of them by its range of bytes. Main statement: `read?_append`, a literal reads back the text
that was put into its range.
-/

namespace HtmlTape

/-- A range of bytes of a pool. -/
structure Literal where
  offset : Nat
  size : Nat
deriving DecidableEq

namespace Literal

/-- The text that a literal names; `none` when an end of the range lies outside of the pool or
inside of a character. -/
def read? (l : Literal) (pool : String) : Option String :=
  if h : String.Pos.Raw.IsValid pool ⟨l.offset⟩ ∧
      String.Pos.Raw.IsValid pool ⟨l.offset + l.size⟩ then
    some (pool.extract ⟨_, h.1⟩ ⟨_, h.2⟩)
  else
    none

/-- The text that a literal names; a range that is none of the pool's is a fault. -/
def read (l : Literal) (pool : String) : Except Fault String :=
  match l.read? pool with
  | some text => .ok text
  | none => .error (.badLiteral l.offset l.size)

/-- A text between two others is read back by its range. -/
theorem read?_append (p s r : String) :
    read? ⟨p.utf8ByteSize, s.utf8ByteSize⟩ (p ++ s ++ r) = some s := by
  have hb : String.Pos.Raw.IsValid (p ++ s ++ r) ⟨p.utf8ByteSize⟩ :=
    String.Pos.Raw.isValid_iff_exists_append.2 ⟨p, s ++ r, String.append_assoc, rfl⟩
  have he : String.Pos.Raw.IsValid (p ++ s ++ r) ⟨p.utf8ByteSize + s.utf8ByteSize⟩ :=
    String.Pos.Raw.isValid_iff_exists_append.2
      ⟨p ++ s, r, rfl, String.Pos.Raw.ext (by simp)⟩
  rw [read?, dif_pos ⟨hb, he⟩]
  refine congrArg some (String.toByteArray_inj.1 ?_)
  have h := ByteArray.extract_append_size_add (a := p.toByteArray)
    (b := s.toByteArray ++ r.toByteArray) (i := 0) (j := s.toByteArray.size)
  simp only [String.toByteArray_extract, String.toByteArray_append, ByteArray.append_assoc]
  simpa [ByteArray.extract_append_eq_left] using h

end Literal

end HtmlTape
