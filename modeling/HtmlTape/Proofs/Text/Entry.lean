import HtmlTape.Text.Number
import Mathlib.Data.List.Forall2

/-!
# Entries of dumps and listings

A dump and a listing tell about one offset on each line: its digits, a label, and what else there
is to say (`IsEntry`).  An entry ends in the only line feed it has, so that lines can be counted by
their line feeds (`count_lineFeed_join`).
-/

namespace HtmlTape.Text

/-- The line starts with the digits of the offset, at least four of them, a blank and the label.
It ends in a line feed, and there is no other. -/
def IsEntry (offset : Nat) (label line : String) : Prop :=
  ∃ digits rest : List Char, line.toList = digits ++ ' ' :: (label.toList ++ rest) ++ ['\n'] ∧
    Nat.ofDigitChars 10 digits 0 = offset ∧ (∀ c ∈ digits, c.isDigit) ∧
    digits.length = max 4 (Nat.toDigits 10 offset).length ∧ '\n' ∉ label.toList ++ rest

theorem isDigit_of_mem_column {offset : Nat} {c : Char} (h : c ∈ (column '0' offset).toList) :
    c.isDigit := by
  rw [column, String.toList_ofList, padLeft] at h
  rcases List.mem_append.1 h with h | h
  · rw [List.eq_of_mem_replicate h]
    rfl
  · exact Nat.isDigit_of_mem_toDigits (by decide) (by decide) h

theorem isEntry_column {offset : Nat} {label rest : String}
    (h : '\n' ∉ label.toList ++ rest.toList) :
    IsEntry offset label (column '0' offset ++ " " ++ (label ++ rest) ++ "\n") := by
  refine ⟨(column '0' offset).toList, rest.toList, by simp, ?_, fun c => isDigit_of_mem_column, ?_,
    h⟩
  · rw [column, String.toList_ofList, padLeft, Nat.ofDigitChars_append,
      Nat.ofDigitChars_replicate_zero, Nat.mul_zero, Nat.ofDigitChars_ten_toDigits]
  · rw [column, String.toList_ofList, padLeft, List.length_append, List.length_replicate]
    omega

theorem IsEntry.count_lineFeed {offset : Nat} {label line : String}
    (h : IsEntry offset label line) : line.toList.count '\n' = 1 := by
  obtain ⟨digits, rest, hline, -, hdigits, -, hrest⟩ := h
  have hfree : '\n' ∉ digits ++ ' ' :: (label.toList ++ rest) := by
    rw [List.mem_append, List.mem_cons]
    rintro (h | h | h)
    · exact absurd (hdigits _ h) (by decide)
    · cases h
    · exact hrest h
  rw [hline, List.count_append, List.count_eq_zero_of_not_mem hfree]
  rfl

/-- **Entries are as many as their line feeds.** -/
theorem count_lineFeed_join {α : Type} {offset : α → Nat} {label : α → String} {rows : List α}
    {lines : List String}
    (h : List.Forall₂ (fun row line => IsEntry (offset row) (label row) line) rows lines) :
    (String.join lines).toList.count '\n' = lines.length := by
  rw [String.toList_join]
  induction h with
  | nil => rfl
  | cons hentry _ ih =>
    rw [List.flatMap_cons, List.count_append, hentry.count_lineFeed, ih, List.length_cons,
      Nat.add_comm]

theorem notMem_intercalate {separator : String} {c : Char} (hseparator : c ∉ separator.toList)
    {texts : List String} (h : ∀ text ∈ texts, c ∉ text.toList) :
    c ∉ (separator.intercalate texts).toList := by
  induction texts with
  | nil => exact List.not_mem_nil
  | cons text rest ih =>
    have hhead := h text List.mem_cons_self
    cases rest with
    | nil => rwa [String.intercalate_singleton]
    | cons next rest =>
      have htail := ih fun text ht => h text (List.mem_cons_of_mem _ ht)
      rw [String.intercalate_cons_cons, String.toList_append, String.toList_append, List.mem_append,
        List.mem_append]
      rintro ((h | h) | h)
      exacts [hhead h, hseparator h, htail h]

theorem lineFeed_notMem_toString (n : Nat) : '\n' ∉ (toString n).toList := by
  rw [Nat.toString_eq_ofList_toDigits, String.toList_ofList]
  intro h
  exact absurd (Nat.isDigit_of_mem_toDigits (by decide) (by decide) h) (by decide)

theorem lineFeed_notMem_numberList (ns : List Nat) : '\n' ∉ (numberList ns).toList := by
  have hnumbers : '\n' ∉ (", ".intercalate (ns.map toString)).toList := by
    refine notMem_intercalate (by decide) fun text htext => ?_
    obtain ⟨n, -, rfl⟩ := List.mem_map.1 htext
    exact lineFeed_notMem_toString n
  simpa [numberList] using hnumbers

end HtmlTape.Text
