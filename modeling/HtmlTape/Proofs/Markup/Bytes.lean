import HtmlTape.Proofs.Markup.Reference

/-!
# Character references in bytes

The recogniser of references at a place of a row of bytes, each byte read as the character with its
code (`referenceLengthAt?`).  It answers a length exactly when the bytes of this length from the
place on are a reference; there is at most one such length, none of these bytes lies behind the end,
and no more than 34 bytes are looked at (`referenceLengthAt?_recognizes`).

It does not matter whether the characters of a text or their UTF-8 bytes are read: a reference has
characters of ASCII only (`IsReference.isAscii`), and these are the bytes of no other character
(`exists_append_of_utf8`).
-/

namespace HtmlTape.Markup

/-! ### How long references are -/

theorem IsReference.length_le {r : List Char} (h : IsReference r) : r.length ≤ 34 := by
  cases h with
  | @named c name letter alphanumeric bound => simp; omega
  | @decimal digits digit some bound => simp; omega
  | @hexadecimal x digits mark digit some bound => simp; omega

/-- The recogniser looks at the longest reference that could stand at the start, and no further. -/
theorem referenceLength?_take (s : List Char) :
    referenceLength? (s.take 34) = referenceLength? s := by
  apply Option.ext
  intro n
  rw [referenceLength?_eq_some, referenceLength?_eq_some]
  constructor
  · rintro ⟨r, rest, hs, hr, hn⟩
    refine ⟨r, rest ++ s.drop 34, ?_, hr, hn⟩
    rw [← List.append_assoc, ← hs, List.take_append_drop]
  · rintro ⟨r, rest, rfl, hr, hn⟩
    refine ⟨r, rest.take (34 - r.length), ?_, hr, hn⟩
    rw [List.take_append, List.take_of_length_le hr.length_le]

theorem referenceLength?_eq_some_iff_take {s : List Char} {n : Nat} :
    referenceLength? s = some n ↔ n ≤ s.length ∧ IsReference (s.take n) := by
  rw [referenceLength?_eq_some]
  constructor
  · rintro ⟨r, rest, rfl, hr, rfl⟩
    rw [List.take_left, List.length_append]
    exact ⟨Nat.le_add_right _ _, hr⟩
  · rintro ⟨hle, hr⟩
    exact ⟨s.take n, s.drop n, (List.take_append_drop n s).symm, hr, List.length_take_of_le hle⟩

/-! ### Characters of ASCII -/

def isAscii (c : Char) : Bool := c.toNat < 128

theorem isAscii_of_isReferenceChar {c : Char} (h : isReferenceChar c) : isAscii c := by
  have hle : ∀ {d : Char}, c ≤ d → d.toNat < 128 → c.toNat < 128 :=
    fun hcd hd => Nat.lt_of_le_of_lt (UInt32.le_iff_toNat_le.1 (Char.le_def.1 hcd)) hd
  simp only [isReferenceChar, isAlphanumeric, isLetter, isDigit, Bool.or_eq_true,
    Bool.and_eq_true, decide_eq_true_eq, beq_iff_eq] at h
  refine decide_eq_true ?_
  rcases h with (((⟨-, h⟩ | ⟨-, h⟩) | ⟨-, h⟩) | rfl) | rfl
  · exact hle h (by decide)
  · exact hle h (by decide)
  · exact hle h (by decide)
  · decide
  · decide

/-- **A reference has characters of ASCII only.** -/
theorem IsReference.isAscii {r : List Char} (h : IsReference r) : ∀ c ∈ r, isAscii c := by
  obtain ⟨tail, rfl, htail⟩ := h.eq_cons
  intro c hc
  rcases List.mem_cons.1 hc with rfl | hc
  · rfl
  · exact isAscii_of_isReferenceChar (htail c hc)

/-- The bytes of a text, each read as the character with its code. -/
def utf8 (s : List Char) : List Char :=
  (s.flatMap String.utf8EncodeChar).map Char.ofUInt8

theorem utf8_cons (c : Char) (s : List Char) :
    utf8 (c :: s) = (String.utf8EncodeChar c).map Char.ofUInt8 ++ utf8 s := by
  rw [utf8, List.flatMap_cons, List.map_append]
  rfl

theorem map_utf8EncodeChar_of_isAscii {c : Char} (h : isAscii c) :
    (String.utf8EncodeChar c).map Char.ofUInt8 = [c] := by
  have hlt : c.toNat < 128 := of_decide_eq_true h
  have hsize : c.utf8Size = 1 :=
    Char.utf8Size_eq_one_iff.2 (UInt32.le_iff_toNat_le.2 (Nat.le_of_lt_succ hlt))
  have hbyte : c.val.toUInt8.toUInt32 = c.val := by
    apply UInt32.toNat_inj.1
    rw [UInt8.toNat_toUInt32, UInt32.toNat_toUInt8]
    exact Nat.mod_eq_of_lt (Nat.lt_trans hlt (by decide))
  rw [String.utf8EncodeChar_eq_singleton hsize]
  exact congrArg (fun d => [d]) (Char.ext hbyte)

theorem exists_utf8EncodeChar_of_not_isAscii {c : Char} (h : ¬ isAscii c) :
    ∃ b bs, String.utf8EncodeChar c = b :: bs ∧ ¬ isAscii (Char.ofUInt8 b) := by
  have hge : 127 < c.val.toNat := by
    have hnot : ¬ c.toNat < 128 := fun hlt => h (decide_eq_true hlt)
    exact Nat.le_of_not_lt hnot
  have hbyte : ∀ {n : Nat}, 128 ≤ n → n < 256 → ¬ isAscii (Char.ofUInt8 (UInt8.ofNat n)) := by
    intro n hn hlt hascii
    have hlow : (Char.ofUInt8 (UInt8.ofNat n)).toNat < 128 := of_decide_eq_true hascii
    have hcode : (Char.ofUInt8 (UInt8.ofNat n)).toNat = n := by
      show (UInt8.ofNat n).toUInt32.toNat = n
      rw [UInt8.toNat_toUInt32, UInt8.toNat_ofNat', Nat.mod_eq_of_lt hlt]
    omega
  simp only [String.utf8EncodeChar, if_neg (Nat.not_le.2 hge)]
  split
  · exact ⟨_, _, rfl, hbyte (by omega) (by omega)⟩
  · split
    · exact ⟨_, _, rfl, hbyte (by omega) (by omega)⟩
    · exact ⟨_, _, rfl, hbyte (by omega) (by omega)⟩

theorem utf8_append_of_isAscii {r : List Char} (hr : ∀ c ∈ r, isAscii c) (s : List Char) :
    utf8 (r ++ s) = r ++ utf8 s := by
  induction r with
  | nil => rfl
  | cons c r ih =>
    obtain ⟨hc, hr⟩ := List.forall_mem_cons.1 hr
    rw [List.cons_append, utf8_cons, map_utf8EncodeChar_of_isAscii hc, ih hr]
    rfl

/-- **Characters of ASCII at the start of the bytes** are at the start of the text. -/
theorem exists_append_of_utf8 {r : List Char} (hr : ∀ c ∈ r, isAscii c) :
    ∀ {s rest : List Char}, utf8 s = r ++ rest → ∃ s', s = r ++ s' := by
  induction r with
  | nil => exact fun {s _} _ => ⟨s, rfl⟩
  | cons c r ih =>
    obtain ⟨hc, hrest⟩ := List.forall_mem_cons.1 hr
    intro s rest h
    cases s with
    | nil => cases h
    | cons d s =>
      rw [utf8_cons] at h
      by_cases hd : isAscii d
      · rw [map_utf8EncodeChar_of_isAscii hd] at h
        obtain ⟨rfl, htail⟩ := List.cons.inj h
        obtain ⟨s', rfl⟩ := ih hrest htail
        exact ⟨s', rfl⟩
      · obtain ⟨b, bs, hbytes, hb⟩ := exists_utf8EncodeChar_of_not_isAscii hd
        rw [hbytes] at h
        obtain ⟨rfl, -⟩ := List.cons.inj h
        exact absurd hc hb

/-- **Reading a text or its bytes** makes no difference. -/
theorem referenceLength?_utf8 (s : List Char) : referenceLength? (utf8 s) = referenceLength? s := by
  apply Option.ext
  intro n
  rw [referenceLength?_eq_some, referenceLength?_eq_some]
  constructor
  · rintro ⟨r, rest, hs, hr, hn⟩
    obtain ⟨s', rfl⟩ := exists_append_of_utf8 hr.isAscii hs
    exact ⟨r, s', rfl, hr, hn⟩
  · rintro ⟨r, rest, rfl, hr, hn⟩
    exact ⟨r, utf8 rest, utf8_append_of_isAscii hr.isAscii rest, hr, hn⟩

/-! ### Places in a row of bytes -/

/-- The length of the reference at a place of a row of bytes. -/
def referenceLengthAt? (bytes : List UInt8) (place : Nat) : Option Nat :=
  referenceLength? ((bytes.drop place).map Char.ofUInt8)

/-- The bytes of a length from a place on are a reference. -/
def IsReferenceAt (bytes : List UInt8) (place length : Nat) : Prop :=
  place + length ≤ bytes.length ∧ IsReference (((bytes.drop place).take length).map Char.ofUInt8)

/-- **References in bytes are recognised exactly.**  A length is answered if and only if the bytes
of this length from the place on are a reference, and none of them lies behind the end.  There is
only one such length.  The answer depends on 34 bytes at most, and it is that for the characters
if the bytes are those of a text. -/
theorem referenceLengthAt?_recognizes (bytes : List UInt8) (place : Nat) :
    (∀ n, referenceLengthAt? bytes place = some n ↔ IsReferenceAt bytes place n) ∧
    (∀ n m, IsReferenceAt bytes place n → IsReferenceAt bytes place m → n = m) ∧
    referenceLengthAt? (bytes.take (place + 34)) place = referenceLengthAt? bytes place ∧
    ∀ text : List Char, bytes.drop place = text.flatMap String.utf8EncodeChar →
      referenceLengthAt? bytes place = referenceLength? text := by
  have hanswer : ∀ n, referenceLengthAt? bytes place = some n ↔ IsReferenceAt bytes place n := by
    intro n
    rw [referenceLengthAt?, referenceLength?_eq_some_iff_take, List.length_map, List.length_drop,
      ← List.map_take, IsReferenceAt]
    refine and_congr_left fun hr => ?_
    -- a reference is not empty, so that the place is not behind the end
    have hpos := hr.length_pos
    rw [List.length_map, List.length_take, List.length_drop] at hpos
    omega
  refine ⟨hanswer, fun n m hn hm => ?_, ?_, fun text htext => ?_⟩
  · exact Option.some.inj (((hanswer n).2 hn).symm.trans ((hanswer m).2 hm))
  · rw [referenceLengthAt?, List.drop_take, Nat.add_sub_cancel_left, List.map_take,
      referenceLength?_take]
    rfl
  · rw [referenceLengthAt?, htext]
    exact referenceLength?_utf8 text

/-- A name of 32 letters is the longest one, and it must end before the bytes do. -/
example : referenceLengthAt? (120 :: 38 :: List.replicate 32 97 ++ [59]) 1 = some 34 ∧
    referenceLengthAt? (120 :: 38 :: List.replicate 33 97 ++ [59]) 1 = none ∧
    referenceLengthAt? (120 :: 38 :: List.replicate 32 97) 1 = none := by
  decide

end HtmlTape.Markup
