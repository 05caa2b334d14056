import HtmlTape.Proofs.Markup.Lexeme

/-!
# Escaped text content

Escaping replaces every `&`, `<` and `>` of a text by its reference and keeps every other character
(`toList_escapeText_flatMap`).  A replaced character makes the text longer
(`length_lt_length_flatMap_contentOf`), so an escaped text is the text itself only when nothing was
replaced.
-/

namespace HtmlTape.Markup

def contentOf : Char → List Char
  | '&' => "&amp;".toList
  | '<' => "&lt;".toList
  | '>' => "&gt;".toList
  | c => [c]

theorem written_textFate (c : Char) : (textFate c).written = contentOf c := by
  rcases textFate_cases c with ⟨hfate, hamp, hlt, hgt⟩ | ⟨rfl, hfate⟩ | ⟨rfl, hfate⟩ | ⟨rfl, hfate⟩
  · rw [hfate, Fate.written, contentOf.eq_4 c hamp hlt hgt]
  · rw [hfate]
    rfl
  · rw [hfate]
    rfl
  · rw [hfate]
    rfl

theorem written_textFates (s : List Char) : written (textFates s) = s.flatMap contentOf := by
  rw [written, textFates, List.flatMap_map]
  exact congrArg (fun f => s.flatMap f) (funext written_textFate)

theorem toList_escapeText_flatMap (s : String) :
    (escapeText s).text.toList = s.toList.flatMap contentOf := by
  rw [toList_escapeText, written_textFates]

/-- No bracket stands for a character, and an `&` only in front of a reference. -/
theorem contentOf_cases (c : Char) :
    (contentOf c = [c] ∧ isTextSpecial c = false) ∨
      ∃ name, contentOf c = '&' :: name ∧ '&' :: name ∈
        ["&amp;".toList, "&lt;".toList, "&gt;".toList] ∧ ∀ d ∈ name, isTextSpecial d = false := by
  rw [← written_textFate]
  rcases textFate_cases c with ⟨hfate, hamp, hlt, hgt⟩ | ⟨_, hfate⟩ | ⟨_, hfate⟩ | ⟨_, hfate⟩
  · refine .inl ⟨by rw [hfate, Fate.written], ?_⟩
    rw [isTextSpecial, beq_false_of_ne hamp, beq_false_of_ne hlt, beq_false_of_ne hgt]
    rfl
  · exact .inr ⟨"amp;".toList, by rw [hfate]; rfl, by decide, by simp [isTextSpecial]⟩
  · exact .inr ⟨"lt;".toList, by rw [hfate]; rfl, by decide, by simp [isTextSpecial]⟩
  · exact .inr ⟨"gt;".toList, by rw [hfate]; rfl, by decide, by simp [isTextSpecial]⟩

/-- **Every special character of what stands for a text is the `&` of a reference.** -/
theorem special_of_flatMap_contentOf {s a b : List Char} {c : Char} (hc : isTextSpecial c)
    (h : s.flatMap contentOf = a ++ c :: b) : c = '&' ∧
      ∃ r ∈ ["&amp;".toList, "&lt;".toList, "&gt;".toList], ∃ rest, c :: b = r ++ rest := by
  induction s generalizing a with
  | nil => exact absurd h.symm (by simp)
  | cons d s ih =>
    rw [List.flatMap_cons] at h
    -- The character stands in what is written for the first one, or behind it.
    rcases List.append_eq_append_iff.1 h with ⟨t, rfl, ht⟩ | ⟨t, ht, hrest⟩
    · exact ih ht
    · cases t with
      | nil => exact ih (a := []) hrest.symm
      | cons e t =>
        obtain ⟨rfl, rfl⟩ := List.cons.inj hrest
        rcases contentOf_cases d with ⟨hd, hplain⟩ | ⟨name, hd, hname, hplain⟩
        · rw [hd] at ht
          obtain ⟨rfl, rfl, rfl⟩ : a = [] ∧ c = d ∧ t = [] := by
            cases a with
            | nil =>
              obtain ⟨rfl, rfl⟩ := List.cons.inj ht
              exact ⟨rfl, rfl, rfl⟩
            | cons e a => exact absurd (List.cons.inj ht).2.symm (by simp)
          rw [hc] at hplain
          cases hplain
        · rw [hd] at ht
          cases a with
          | nil =>
            obtain ⟨rfl, rfl⟩ := List.cons.inj ht
            exact ⟨rfl, _, hname, s.flatMap contentOf, rfl⟩
          | cons e a =>
            obtain ⟨rfl, rfl⟩ := List.cons.inj ht
            have := hplain c (List.mem_append_right a List.mem_cons_self)
            rw [hc] at this
            cases this

theorem length_le_length_flatMap_contentOf (s : List Char) :
    s.length ≤ (s.flatMap contentOf).length := by
  induction s with
  | nil => exact Nat.le_refl _
  | cons c s ih =>
    have hc : 1 ≤ (contentOf c).length := by
      rcases contentOf_cases c with ⟨hc, _⟩ | ⟨name, hc, _⟩
      · rw [hc]
        exact Nat.le_refl _
      · rw [hc]
        exact Nat.succ_le_succ (Nat.zero_le _)
    rw [List.flatMap_cons, List.length_append, List.length_cons]
    omega

theorem length_lt_length_flatMap_contentOf {s : List Char} (h : s.any isTextSpecial) :
    s.length < (s.flatMap contentOf).length := by
  obtain ⟨c, hc, hspecial⟩ := List.any_eq_true.1 h
  obtain ⟨a, b, rfl⟩ := List.append_of_mem hc
  have ha := length_le_length_flatMap_contentOf a
  have hb := length_le_length_flatMap_contentOf b
  have hlong : 1 < (contentOf c).length := by
    rcases contentOf_cases c with ⟨_, hplain⟩ | ⟨name, hname, hmem, _⟩
    · rw [hspecial] at hplain
      cases hplain
    · rw [hname]
      simp only [List.mem_cons, List.not_mem_nil, or_false] at hmem
      rcases hmem with hmem | hmem | hmem <;> rw [hmem] <;> decide
  rw [List.flatMap_append, List.flatMap_cons]
  simp only [List.length_append, List.length_cons]
  omega

theorem isUnchanged_escapeText (s : String) :
    (escapeText s).isUnchanged ↔ (escapeText s).text = s := by
  rw [escapeText]
  by_cases hs : s.toList.any isTextSpecial
  · rw [if_pos hs, Escaped.isUnchanged, Escaped.text, written_textFates]
    refine iff_of_false (by simp) fun heq => ?_
    have hlt := length_lt_length_flatMap_contentOf hs
    rw [← String.toList_ofList (l := s.toList.flatMap contentOf), heq] at hlt
    exact Nat.lt_irrefl _ hlt
  · rw [if_neg hs]
    exact iff_of_true rfl rfl

/-- **Escaped text content** is the text with each `&`, `<` and `>` replaced by its reference.  So it
has no bracket, every `&` in it starts one of the three references, and texts are escaped one after
the other.  Replacing the references from left to right gives the text back.  It is the text itself
exactly if nothing had to be replaced, and the chunks in which it is written make it up. -/
theorem escapeText_characterwise (s : String) :
    (escapeText s).text.toList = s.toList.flatMap contentOf ∧
      ('<' ∉ (escapeText s).text.toList ∧ '>' ∉ (escapeText s).text.toList) ∧
      (∀ a b, (escapeText s).text.toList = a ++ '&' :: b →
        ∃ r ∈ ["&amp;".toList, "&lt;".toList, "&gt;".toList], ∃ rest, '&' :: b = r ++ rest) ∧
      (∀ t, (escapeText (s ++ t)).text = (escapeText s).text ++ (escapeText t).text) ∧
      readText (escapeText s).text.toList = s.toList ∧
      ((escapeText s).isUnchanged ↔ (escapeText s).text = s) ∧
      String.join (textChunks s) = (escapeText s).text := by
  have hbracket : ∀ c, isTextSpecial c → c ≠ '&' → c ∉ (escapeText s).text.toList := by
    intro c hc hne hmem
    obtain ⟨a, b, hab⟩ := List.append_of_mem hmem
    rw [toList_escapeText_flatMap] at hab
    exact hne (special_of_flatMap_contentOf hc hab).1
  refine ⟨toList_escapeText_flatMap s, ⟨hbracket '<' rfl (by decide), hbracket '>' rfl (by decide)⟩,
    fun a b hab => ?_, escapeText_append s, ?_, isUnchanged_escapeText s, ?_⟩
  · rw [toList_escapeText_flatMap] at hab
    exact (special_of_flatMap_contentOf rfl hab).2
  · rw [toList_escapeText, readText_written]
  · apply String.toList_inj.1
    rw [join_textChunks, toList_escapeText]

/-- The first reference of `<&` escaped. -/
theorem escapeText_characterwise_bracket :
    (escapeText "<&").text.toList = [] ++ '&' :: "lt;&amp;".toList ∧
      ∃ r ∈ ["&amp;".toList, "&lt;".toList, "&gt;".toList],
        ∃ rest, '&' :: "lt;&amp;".toList = r ++ rest :=
  have hout : (escapeText "<&").text.toList = [] ++ '&' :: "lt;&amp;".toList := by decide +kernel
  ⟨hout, (escapeText_characterwise "<&").2.2.1 [] _ hout⟩

end HtmlTape.Markup
