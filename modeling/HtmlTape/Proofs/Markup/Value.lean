import HtmlTape.Proofs.Markup.Reference
import HtmlTape.Proofs.Markup.Written

/-!
# Escaped attribute values

A value is read from left to right, a reference or a character at a time: what is written for a
reference is the reference (`written_valueFates_reference`), and what is written for any other
character is itself or a reference that means it (`written_valueFates_character`).

* `valueFates_written`: nothing is replaced in what is written for a value.
* `written_valueFates_append_cons`: a character that stands in no reference divides a value into two
  that are escaped on their own.
* `decode_written`: what is written for a value means the same under every valuation of the
  references.
-/

namespace HtmlTape.Markup

/-! ### Kept and replaced characters -/

theorem isValueSpecial_of_isReferenceChar {c : Char} (h : isReferenceChar c) :
    isValueSpecial c = false := by
  cases hspecial : isValueSpecial c with
  | false => rfl
  | true =>
    simp only [isValueSpecial, isTextSpecial, Bool.or_eq_true, beq_iff_eq] at hspecial
    rcases hspecial with (((rfl | rfl) | rfl) | rfl) | rfl <;> cases h

/-- The characters of a reference after its `&` are kept. -/
theorem valueFates_append_of_isReferenceChar {tail : List Char} (h : ∀ c ∈ tail, isReferenceChar c)
    (rest : List Char) : valueFates (tail ++ rest) = tail.map .keep ++ valueFates rest := by
  induction tail with
  | nil => rfl
  | cons c tail ih =>
    have hc := isValueSpecial_of_isReferenceChar (h c List.mem_cons_self)
    rw [List.cons_append, valueFates, valueFate_of_not_special hc,
      ih fun d hd => h d (List.mem_cons_of_mem c hd)]
    rfl

theorem valueFate_ampersand (rest : List Char) : valueFate '&' rest =
    if (referenceLength? ('&' :: rest)).isNone then .replace "&amp;" else .keep '&' := by
  rw [valueFate, if_neg (by decide), if_neg (by decide), if_neg (by decide), if_neg (by decide)]
  by_cases h : (referenceLength? ('&' :: rest)).isNone
  · rw [if_pos ⟨rfl, h⟩, if_pos h]
  · rw [if_neg fun hamp => h hamp.2, if_neg h]

/-- **A reference is kept as a whole.** -/
theorem valueFates_reference {r : List Char} (h : IsReference r) (rest : List Char) :
    valueFates (r ++ rest) = r.map .keep ++ valueFates rest := by
  have hlength := h.referenceLength? rest
  obtain ⟨tail, rfl, htail⟩ := h.eq_cons
  have hfate : valueFate '&' (tail ++ rest) = .keep '&' := by
    rw [valueFate_ampersand, ← List.cons_append, hlength]
    rfl
  rw [List.cons_append, valueFates, hfate, valueFates_append_of_isReferenceChar htail]
  rfl

theorem written_map_keep (s : List Char) : written (s.map .keep) = s := by
  induction s with
  | nil => rfl
  | cons c s ih =>
    rw [List.map_cons, written_cons, ih]
    rfl

theorem written_append (fates fates' : List Fate) :
    written (fates ++ fates') = written fates ++ written fates' := List.flatMap_append

theorem written_valueFates_reference {r : List Char} (h : IsReference r) (rest : List Char) :
    written (valueFates (r ++ rest)) = r ++ written (valueFates rest) := by
  rw [valueFates_reference h, written_append, written_map_keep]

/-- The characters that are always replaced when no reference starts at them, and what is written
for them. -/
def replacements : List (Char × String) :=
  [('&', "&amp;"), ('<', "&lt;"), ('>', "&gt;"), ('"', "&#34;"), ('\'', "&#39;")]

theorem isReference_of_mem_replacements {c : Char} {reference : String}
    (h : (c, reference) ∈ replacements) : IsReference reference.toList := by
  simp only [replacements, List.mem_cons, List.not_mem_nil, or_false, Prod.mk.injEq] at h
  rcases h with ⟨_, rfl⟩ | ⟨_, rfl⟩ | ⟨_, rfl⟩ | ⟨_, rfl⟩ | ⟨_, rfl⟩
  · exact @IsReference.named 'a' ['m', 'p'] rfl (List.all_eq_true.1 rfl) (by decide)
  · exact @IsReference.named 'l' ['t'] rfl (List.all_eq_true.1 rfl) (by decide)
  · exact @IsReference.named 'g' ['t'] rfl (List.all_eq_true.1 rfl) (by decide)
  · exact @IsReference.decimal ['3', '4'] (List.all_eq_true.1 rfl) (by decide) (by decide)
  · exact @IsReference.decimal ['3', '9'] (List.all_eq_true.1 rfl) (by decide) (by decide)

/-- **What becomes of a character that starts no reference**: it is no special character and kept,
or it is replaced. -/
theorem valueFate_character {c : Char} {rest : List Char}
    (h : referenceLength? (c :: rest) = none) :
    (isValueSpecial c = false ∧ valueFate c rest = .keep c) ∨
      ∃ reference, (c, reference) ∈ replacements ∧ valueFate c rest = .replace reference := by
  by_cases hspecial : isValueSpecial c
  · simp only [isValueSpecial, isTextSpecial, Bool.or_eq_true, beq_iff_eq] at hspecial
    rcases hspecial with (((rfl | rfl) | rfl) | rfl) | rfl
    · exact .inr ⟨"&amp;", by decide, by rw [valueFate_ampersand, h]; rfl⟩
    · exact .inr ⟨"&lt;", by decide, rfl⟩
    · exact .inr ⟨"&gt;", by decide, rfl⟩
    · exact .inr ⟨"&#34;", by decide, rfl⟩
    · exact .inr ⟨"&#39;", by decide, rfl⟩
  · have hspecial := Bool.not_eq_true _ ▸ hspecial
    exact .inl ⟨hspecial, valueFate_of_not_special hspecial rest⟩

theorem written_valueFates_cons (c : Char) (rest : List Char) : written (valueFates (c :: rest)) =
    (valueFate c rest).written ++ written (valueFates rest) := written_cons _ _

/-- **Nothing is replaced in what is written for a value.** -/
theorem valueFates_written (s : List Char) :
    valueFates (written (valueFates s)) = (written (valueFates s)).map .keep := by
  induction s using scan_induction with
  | nil => rfl
  | reference r rest hr ih =>
    rw [written_valueFates_reference hr, valueFates_reference hr, ih, List.map_append]
  | character c rest hno ih =>
    rw [written_valueFates_cons]
    rcases valueFate_character hno with ⟨hspecial, hfate⟩ | ⟨reference, hmem, hfate⟩
    · rw [hfate, Fate.written, List.singleton_append, valueFates,
        valueFate_of_not_special hspecial, ih]
      rfl
    · rw [hfate, Fate.written, valueFates_reference (isReference_of_mem_replacements hmem), ih,
        List.map_append]

/-- In a value of which nothing is replaced, every character is kept where it stands. -/
theorem valueFate_eq_keep {s a b : List Char} {c : Char} (h : valueFates s = s.map .keep)
    (hs : s = a ++ c :: b) : valueFate c b = .keep c := by
  subst hs
  induction a with
  | nil => exact (List.cons.inj h).1
  | cons d a ih => exact ih (List.cons.inj h).2

/-- **Values divided by a character that stands in no reference are escaped on their own.** -/
theorem written_valueFates_append_cons {c : Char} (hspecial : isValueSpecial c = false)
    (hc : isReferenceChar c = false) (a b : List Char) :
    written (valueFates (a ++ c :: b)) =
      written (valueFates a) ++ c :: written (valueFates b) := by
  have hne : c ≠ '&' := by
    rintro rfl
    cases hspecial
  induction a with
  | nil =>
    rw [List.nil_append, written_valueFates_cons, valueFate_of_not_special hspecial]
    rfl
  | cons d a ih =>
    have hfate : valueFate d (a ++ c :: b) = valueFate d a := by
      rw [valueFate, valueFate, ← List.cons_append, referenceLength?_append_cons hne hc]
    rw [List.cons_append, written_valueFates_cons, written_valueFates_cons, hfate, ih,
      List.append_assoc]

/-! ### What a value means -/

/-- A meaning of the well-formed references, with the usual one for those that are written for
characters. -/
structure Valuation where
  /-- What a reference stands for. -/
  meaning : List Char → List Char
  amp : meaning "&amp;".toList = ['&']
  lt : meaning "&lt;".toList = ['<']
  gt : meaning "&gt;".toList = ['>']
  quote : meaning "&#34;".toList = ['"']
  apostrophe : meaning "&#39;".toList = ['\'']

/-- The references that are written for characters mean these, and every other one itself. -/
def Valuation.least : Valuation where
  meaning r := ((replacements.find? fun pair => pair.2.toList = r).map fun pair => [pair.1]).getD r
  amp := by decide +kernel
  lt := by decide +kernel
  gt := by decide +kernel
  quote := by decide +kernel
  apostrophe := by decide +kernel

theorem Valuation.meaning_of_mem_replacements (valuation : Valuation) {c : Char}
    {reference : String} (h : (c, reference) ∈ replacements) :
    valuation.meaning reference.toList = [c] := by
  simp only [replacements, List.mem_cons, List.not_mem_nil, or_false, Prod.mk.injEq] at h
  rcases h with ⟨rfl, rfl⟩ | ⟨rfl, rfl⟩ | ⟨rfl, rfl⟩ | ⟨rfl, rfl⟩ | ⟨rfl, rfl⟩
  · exact valuation.amp
  · exact valuation.lt
  · exact valuation.gt
  · exact valuation.quote
  · exact valuation.apostrophe

/-- Read a value from left to right: a well-formed reference stands for its meaning, and every
other character for itself. -/
inductive Decoded (valuation : Valuation) : List Char → List Char → Prop
  | nil : Decoded valuation [] []
  | reference {r rest t : List Char} (isReference : IsReference r)
      (decoded : Decoded valuation rest t) :
      Decoded valuation (r ++ rest) (valuation.meaning r ++ t)
  | character {c : Char} {rest t : List Char}
      (noReference : ∀ r rest', c :: rest = r ++ rest' → ¬ IsReference r)
      (decoded : Decoded valuation rest t) : Decoded valuation (c :: rest) (c :: t)

theorem referenceLength?_eq_none {s : List Char} :
    referenceLength? s = none ↔ ∀ r rest, s = r ++ rest → ¬ IsReference r := by
  constructor
  · rintro h r rest rfl hr
    rw [hr.referenceLength?] at h
    cases h
  · intro h
    cases hlength : referenceLength? s with
    | none => rfl
    | some n =>
      obtain ⟨r, rest, hsplit, hr, _⟩ := referenceLength?_eq_some.1 hlength
      exact absurd hr (h r rest hsplit)

def decode (valuation : Valuation) : List Char → List Char
  | [] => []
  | c :: s =>
    match referenceLength? (c :: s) with
    | some n => valuation.meaning ((c :: s).take n) ++ decode valuation (s.drop (n - 1))
    | none => c :: decode valuation s
termination_by s => s.length

theorem decode_nil (valuation : Valuation) : decode valuation [] = [] := by
  rw [decode]

theorem decode_reference (valuation : Valuation) {r : List Char} (h : IsReference r)
    (rest : List Char) :
    decode valuation (r ++ rest) = valuation.meaning r ++ decode valuation rest := by
  have hlength := h.referenceLength? rest
  obtain ⟨tail, rfl, _⟩ := h.eq_cons
  rw [List.cons_append] at hlength ⊢
  rw [decode, hlength]
  simp

theorem decode_character (valuation : Valuation) {c : Char} {rest : List Char}
    (h : referenceLength? (c :: rest) = none) :
    decode valuation (c :: rest) = c :: decode valuation rest := by
  rw [decode, h]

/-- **Reading a value from left to right has one result**, the one that is computed. -/
theorem decoded_iff {valuation : Valuation} {s t : List Char} :
    Decoded valuation s t ↔ decode valuation s = t := by
  constructor
  · intro h
    induction h with
    | nil => exact decode_nil valuation
    | reference isReference _ ih => rw [decode_reference valuation isReference, ih]
    | character noReference _ ih =>
      rw [decode_character valuation (referenceLength?_eq_none.2 noReference), ih]
  · rintro rfl
    induction s using scan_induction with
    | nil =>
      rw [decode_nil]
      exact .nil
    | reference r rest hr ih =>
      rw [decode_reference valuation hr]
      exact .reference hr ih
    | character c rest hno ih =>
      rw [decode_character valuation hno]
      exact .character (referenceLength?_eq_none.1 hno) ih

/-- **What is written for a value means the same.** -/
theorem decode_written (valuation : Valuation) (s : List Char) :
    decode valuation (written (valueFates s)) = decode valuation s := by
  induction s using scan_induction with
  | nil => rfl
  | reference r rest hr ih =>
    rw [written_valueFates_reference hr, decode_reference valuation hr,
      decode_reference valuation hr, ih]
  | character c rest hno ih =>
    rw [written_valueFates_cons, decode_character valuation hno, ← ih]
    rcases valueFate_character hno with ⟨hspecial, hfate⟩ | ⟨reference, hmem, hfate⟩
    · have hne : c ≠ '&' := by
        rintro rfl
        cases hspecial
      rw [hfate, Fate.written, List.singleton_append,
        decode_character valuation (referenceLength?_of_ne hne _)]
    · rw [hfate, Fate.written,
        decode_reference valuation (isReference_of_mem_replacements hmem),
        valuation.meaning_of_mem_replacements hmem]
      rfl

/-! ### The escaped text -/

theorem escapeValue_of_written {s : String} (h : written (valueFates s.toList) = s.toList) :
    escapeValue s = .unchanged s := by
  rw [escapeValue, h, String.ofList_toList]
  by_cases hs : s.toList.any isValueSpecial
  · rw [if_pos hs]
    exact if_pos rfl
  · rw [if_neg hs]

theorem isUnchanged_escapeValue (s : String) :
    (escapeValue s).isUnchanged ↔ (escapeValue s).text = s := by
  constructor
  · intro h
    rw [escapeValue] at h ⊢
    by_cases hs : s.toList.any isValueSpecial
    · by_cases hout : String.ofList (written (valueFates s.toList)) = s
      · simp only [if_pos hs, if_pos hout, Escaped.text]
      · simp only [if_pos hs, if_neg hout, Escaped.isUnchanged, Bool.false_eq_true] at h
    · rw [if_neg hs, Escaped.text]
  · intro h
    have hwritten : written (valueFates s.toList) = s.toList := by
      rw [← toList_escapeValue, h]
    rw [escapeValue_of_written hwritten]
    rfl

/-- **An escaped attribute value** has no bracket and no quote, and every `&` in it starts a
well-formed reference.  Escaping it again gives it back as it is, and it means the same as the value
it was made of.  It is the value itself exactly if nothing had to be replaced, and the chunks in
which it is written make it up. -/
theorem escapeValue_safe_and_faithful (s : String) :
    (∀ c ∈ (escapeValue s).text.toList, c ≠ '<' ∧ c ≠ '>' ∧ c ≠ '"' ∧ c ≠ '\'') ∧
      (∀ a b, (escapeValue s).text.toList = a ++ '&' :: b →
        ∃ r rest, '&' :: b = r ++ rest ∧ IsReference r) ∧
      escapeValue (escapeValue s).text = .unchanged (escapeValue s).text ∧
      (∀ valuation : Valuation, decode valuation (escapeValue s).text.toList =
        decode valuation s.toList) ∧
      ((escapeValue s).isUnchanged ↔ (escapeValue s).text = s) ∧
      String.join (valueChunks s) = (escapeValue s).text := by
  have hkept : valueFates (escapeValue s).text.toList = (escapeValue s).text.toList.map .keep := by
    rw [toList_escapeValue, valueFates_written]
  refine ⟨fun c hc => ?_, fun a b hab => ?_, ?_, fun valuation => ?_,
    isUnchanged_escapeValue s, ?_⟩
  · obtain ⟨a, b, hab⟩ := List.append_of_mem hc
    rcases valueFate_cases c b with ⟨_, hne⟩ | ⟨reference, _, hfate⟩
    · exact hne
    · rw [valueFate_eq_keep hkept hab] at hfate
      cases hfate
  · have hfate := valueFate_eq_keep hkept hab
    rw [valueFate_ampersand] at hfate
    cases hlength : referenceLength? ('&' :: b) with
    | none =>
      rw [hlength] at hfate
      cases hfate
    | some n =>
      obtain ⟨r, rest, hsplit, hr, _⟩ := referenceLength?_eq_some.1 hlength
      exact ⟨r, rest, hsplit, hr⟩
  · apply escapeValue_of_written
    rw [hkept, written_map_keep]
  · rw [toList_escapeValue, decode_written]
  · apply String.toList_inj.1
    rw [join_valueChunks, toList_escapeValue]

/-- The first reference of `&<` escaped, and what is read there. -/
theorem escapeValue_safe_and_faithful_ampersand :
    (escapeValue "&<").text.toList = [] ++ '&' :: "amp;&lt;".toList ∧
      (∃ r rest, '&' :: "amp;&lt;".toList = r ++ rest ∧ IsReference r) ∧
      decode .least (escapeValue "&<").text.toList = decode .least "&<".toList :=
  have hout : (escapeValue "&<").text.toList = [] ++ '&' :: "amp;&lt;".toList := by decide +kernel
  have h := escapeValue_safe_and_faithful "&<"
  ⟨hout, h.2.1 [] _ hout, h.2.2.2.1 .least⟩

end HtmlTape.Markup
