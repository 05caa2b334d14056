import HtmlTape.Markup.Escape

/-!
# Written characters

The chunks of an escaped text make up the characters that its fates write (`join_chunks`), and so
does the text that escaping answers (`toList_escapeText`, `toList_escapeValue`).  No bracket and no
quote is written as it is, and a text is read back from what is written for it
(`readText_written`).
-/

namespace HtmlTape.Markup

/-! ### Chunks -/

theorem written_cons (fate : Fate) (fates : List Fate) :
    written (fate :: fates) = fate.written ++ written fates := List.flatMap_cons

theorem join_chunksAfter (run : List Char) (fates : List Fate) :
    (String.join (chunksAfter run fates)).toList = run.reverse ++ written fates := by
  induction fates generalizing run with
  | nil =>
    rw [chunksAfter]
    by_cases hrun : run.isEmpty
    · rw [if_pos hrun, List.isEmpty_iff.1 hrun]
      rfl
    · rw [if_neg hrun, String.toList_join, List.flatMap_singleton, String.toList_ofList]
      exact (List.append_nil _).symm
  | cons fate fates ih =>
    cases fate with
    | keep c =>
      rw [chunksAfter, ih, written_cons, List.reverse_cons, List.append_assoc]
      rfl
    | replace reference =>
      have hrest := ih []
      rw [String.toList_join] at hrest
      rw [chunksAfter, written_cons, Fate.written, String.toList_join]
      by_cases hrun : run.isEmpty
      · rw [if_pos hrun, List.flatMap_cons, hrest, List.isEmpty_iff.1 hrun]
        rfl
      · rw [if_neg hrun, List.flatMap_cons, List.flatMap_cons, hrest, String.toList_ofList]
        rfl

/-- **The chunks make up the written characters.** -/
theorem join_chunks (fates : List Fate) :
    (String.join (chunks fates)).toList = written fates := join_chunksAfter [] fates

theorem join_textChunks (s : String) :
    (String.join (textChunks s)).toList = written (textFates s.toList) := join_chunks _

theorem join_valueChunks (s : String) :
    (String.join (valueChunks s)).toList = written (valueFates s.toList) := by
  rw [valueChunks]
  by_cases hs : s.isEmpty
  · have hs : s = "" := String.isEmpty_iff.1 hs
    subst hs
    rfl
  · rw [if_neg hs, join_chunks]

/-! ### Answered texts -/

theorem textFate_of_not_special {c : Char} (h : isTextSpecial c = false) :
    textFate c = .keep c := by
  simp only [isTextSpecial, Bool.or_eq_false_iff, beq_eq_false_iff_ne] at h
  rw [textFate, if_neg h.1.1, if_neg h.1.2, if_neg h.2]

theorem valueFate_of_not_special {c : Char} (h : isValueSpecial c = false) (rest : List Char) :
    valueFate c rest = .keep c := by
  simp only [isValueSpecial, isTextSpecial, Bool.or_eq_false_iff, beq_eq_false_iff_ne] at h
  obtain ⟨⟨⟨⟨hamp, hlt⟩, hgt⟩, hquote⟩, happ⟩ := h
  rw [valueFate, if_neg hlt, if_neg hgt, if_neg hquote, if_neg happ, if_neg fun h => hamp h.1]

theorem written_textFates_of_not_any {s : List Char} (h : s.any isTextSpecial = false) :
    written (textFates s) = s := by
  induction s with
  | nil => rfl
  | cons c s ih =>
    rw [List.any_cons, Bool.or_eq_false_iff] at h
    show written (textFate c :: textFates s) = _
    rw [textFate_of_not_special h.1, written_cons, ih h.2]
    rfl

theorem written_valueFates_of_not_any {s : List Char} (h : s.any isValueSpecial = false) :
    written (valueFates s) = s := by
  induction s with
  | nil => rfl
  | cons c s ih =>
    rw [List.any_cons, Bool.or_eq_false_iff] at h
    rw [valueFates, valueFate_of_not_special h.1, written_cons, ih h.2]
    rfl

theorem toList_escapeText (s : String) :
    (escapeText s).text.toList = written (textFates s.toList) := by
  rw [escapeText]
  by_cases hs : s.toList.any isTextSpecial
  · rw [if_pos hs, Escaped.text, String.toList_ofList]
  · rw [if_neg hs, Escaped.text, written_textFates_of_not_any (Bool.not_eq_true _ ▸ hs)]

theorem toList_escapeValue (s : String) :
    (escapeValue s).text.toList = written (valueFates s.toList) := by
  rw [escapeValue]
  by_cases hs : s.toList.any isValueSpecial
  · rw [if_pos hs]
    by_cases hout : String.ofList (written (valueFates s.toList)) = s
    · simp only [if_pos hout, Escaped.text]
      rw [← String.toList_ofList (l := written (valueFates s.toList)), hout]
    · simp only [if_neg hout, Escaped.text, String.toList_ofList]
  · rw [if_neg hs, Escaped.text, written_valueFates_of_not_any (Bool.not_eq_true _ ▸ hs)]

/-! ### What is never written -/

def references : List String := ["&lt;", "&gt;", "&#34;", "&#39;", "&amp;"]

theorem notMem_references {c : Char} (h : c ∈ ['<', '"', '\n']) :
    ∀ reference ∈ references, c ∉ reference.toList := by
  simp only [List.mem_cons, List.not_mem_nil, or_false] at h
  rcases h with rfl | rfl | rfl
  · decide
  · decide
  · decide

theorem textFate_cases (c : Char) :
    (textFate c = .keep c ∧ c ≠ '&' ∧ c ≠ '<' ∧ c ≠ '>') ∨
      (c = '&' ∧ textFate c = .replace "&amp;") ∨ (c = '<' ∧ textFate c = .replace "&lt;") ∨
      (c = '>' ∧ textFate c = .replace "&gt;") := by
  by_cases hamp : c = '&'
  · subst hamp
    exact .inr (.inl ⟨rfl, rfl⟩)
  by_cases hlt : c = '<'
  · subst hlt
    exact .inr (.inr (.inl ⟨rfl, rfl⟩))
  by_cases hgt : c = '>'
  · subst hgt
    exact .inr (.inr (.inr ⟨rfl, rfl⟩))
  refine .inl ⟨?_, hamp, hlt, hgt⟩
  rw [textFate, if_neg hamp, if_neg hlt, if_neg hgt]

theorem valueFate_cases (c : Char) (rest : List Char) :
    (valueFate c rest = .keep c ∧ c ≠ '<' ∧ c ≠ '>' ∧ c ≠ '"' ∧ c ≠ '\'') ∨
      ∃ reference ∈ references, valueFate c rest = .replace reference := by
  rw [valueFate]
  by_cases hlt : c = '<'
  · exact .inr ⟨"&lt;", by simp [references], if_pos hlt⟩
  by_cases hgt : c = '>'
  · exact .inr ⟨"&gt;", by simp [references], by rw [if_neg hlt, if_pos hgt]⟩
  by_cases hquote : c = '"'
  · exact .inr ⟨"&#34;", by simp [references], by rw [if_neg hlt, if_neg hgt, if_pos hquote]⟩
  by_cases happ : c = '\''
  · refine .inr ⟨"&#39;", by simp [references], ?_⟩
    rw [if_neg hlt, if_neg hgt, if_neg hquote, if_pos happ]
  rw [if_neg hlt, if_neg hgt, if_neg hquote, if_neg happ]
  by_cases hamp : c = '&' ∧ (referenceLength? (c :: rest)).isNone
  · exact .inr ⟨"&amp;", by simp [references], if_pos hamp⟩
  · exact .inl ⟨if_neg hamp, hlt, hgt, hquote, happ⟩

/-- A character that is written for a text stands in it, or in a character reference. -/
theorem mem_written_textFates {c : Char} {s : List Char} (h : c ∈ written (textFates s)) :
    (c ∈ s ∧ c ≠ '&' ∧ c ≠ '<' ∧ c ≠ '>') ∨
      ∃ reference ∈ references, c ∈ reference.toList := by
  induction s with
  | nil => cases h
  | cons d s ih =>
    rw [textFates, List.map_cons, written_cons] at h
    rcases List.mem_append.1 h with h | h
    · rcases textFate_cases d with ⟨hd, hne⟩ | ⟨_, hd⟩ | ⟨_, hd⟩ | ⟨_, hd⟩ <;> rw [hd] at h
      · rw [Fate.written, List.mem_singleton] at h
        subst h
        exact .inl ⟨List.mem_cons_self, hne⟩
      · exact .inr ⟨"&amp;", by simp [references], h⟩
      · exact .inr ⟨"&lt;", by simp [references], h⟩
      · exact .inr ⟨"&gt;", by simp [references], h⟩
    · rcases ih h with ⟨hc, hne⟩ | hc
      · exact .inl ⟨List.mem_cons_of_mem d hc, hne⟩
      · exact .inr hc

theorem mem_written_valueFates {c : Char} {s : List Char} (h : c ∈ written (valueFates s)) :
    (c ∈ s ∧ c ≠ '<' ∧ c ≠ '>' ∧ c ≠ '"' ∧ c ≠ '\'') ∨
      ∃ reference ∈ references, c ∈ reference.toList := by
  induction s with
  | nil => cases h
  | cons d s ih =>
    rw [valueFates, written_cons] at h
    rcases List.mem_append.1 h with h | h
    · rcases valueFate_cases d s with ⟨hd, hne⟩ | ⟨reference, hmem, hd⟩
      · rw [hd, Fate.written, List.mem_singleton] at h
        subst h
        exact .inl ⟨List.mem_cons_self, hne⟩
      · rw [hd] at h
        exact .inr ⟨reference, hmem, h⟩
    · rcases ih h with ⟨hc, hne⟩ | hc
      · exact .inl ⟨List.mem_cons_of_mem d hc, hne⟩
      · exact .inr hc

theorem lt_notMem_written (s : List Char) : '<' ∉ written (textFates s) := by
  intro h
  rcases mem_written_textFates h with ⟨_, _, hne, _⟩ | ⟨reference, hmem, hc⟩
  · exact hne rfl
  · exact notMem_references (by decide) reference hmem hc

theorem quote_notMem_written (s : List Char) : '"' ∉ written (valueFates s) := by
  intro h
  rcases mem_written_valueFates h with ⟨_, _, _, hne, _⟩ | ⟨reference, hmem, hc⟩
  · exact hne rfl
  · exact notMem_references (by decide) reference hmem hc

theorem lineFeed_notMem_written {s : List Char} (h : '\n' ∉ s) :
    '\n' ∉ written (textFates s) ∧ '\n' ∉ written (valueFates s) := by
  constructor
  · intro hc
    rcases mem_written_textFates hc with ⟨hc, _⟩ | ⟨reference, hmem, hc⟩
    · exact h hc
    · exact notMem_references (by decide) reference hmem hc
  · intro hc
    rcases mem_written_valueFates hc with ⟨hc, _⟩ | ⟨reference, hmem, hc⟩
    · exact h hc
    · exact notMem_references (by decide) reference hmem hc

/-! ### Reading a text back -/

/-- Replace the character references for `&`, `<` and `>` by the characters. -/
def readText : List Char → List Char
  | [] => []
  | '&' :: 'a' :: 'm' :: 'p' :: ';' :: rest => '&' :: readText rest
  | '&' :: 'l' :: 't' :: ';' :: rest => '<' :: readText rest
  | '&' :: 'g' :: 't' :: ';' :: rest => '>' :: readText rest
  | c :: rest => c :: readText rest

theorem readText_cons_of_ne {c : Char} (h : c ≠ '&') (rest : List Char) :
    readText (c :: rest) = c :: readText rest := by
  rw [readText.eq_def]
  split
  · rename_i heq
    cases heq
  · rename_i heq
    cases heq
    exact absurd rfl h
  · rename_i heq
    cases heq
    exact absurd rfl h
  · rename_i heq
    cases heq
    exact absurd rfl h
  · rename_i heq
    cases heq
    rfl

/-- **A text is read back from what is written for it.** -/
theorem readText_written (s : List Char) : readText (written (textFates s)) = s := by
  induction s with
  | nil => rfl
  | cons c s ih =>
    rw [textFates, List.map_cons, written_cons]
    rcases textFate_cases c with ⟨hfate, hamp, _⟩ | ⟨rfl, hfate⟩ | ⟨rfl, hfate⟩ | ⟨rfl, hfate⟩
    · rw [hfate, Fate.written, List.singleton_append, readText_cons_of_ne hamp]
      exact congrArg (c :: ·) ih
    · rw [hfate]
      exact congrArg ('&' :: ·) ih
    · rw [hfate]
      exact congrArg ('<' :: ·) ih
    · rw [hfate]
      exact congrArg ('>' :: ·) ih

end HtmlTape.Markup
