import HtmlTape.Text.Escaped
import HtmlTape.Text.Quoted
import Mathlib.Data.List.Basic

/-!
# Escaped text is read back

Between quotes a character is spelled as it is, with a letter behind a backslash, or with its code
point in braces (`Denotes`).  What is written for a character is one of its spellings
(`denotes_escapeChar`).  The reader of escapes stands between two spellings again when it has read
one (`unescapeFrom?_append`), and it reads nothing else (`exists_denotes_of_unescapeFrom?`).  So a
text is read from each of its spellings (`DenotesAll.unescape?_eq`), and escaped text is read back to
the text (`unescape?_escape`).  Escaped text has no control characters, and quoted text no line feed.
-/

namespace HtmlTape.Text

/-! ### Hexadecimal digits -/

theorem exists_digitChar_of_mem_toDigits {b : Nat} (hb : 1 < b) (n : Nat) {c : Char} :
    c ∈ Nat.toDigits b n → ∃ k < b, c = k.digitChar := by
  induction n using Nat.strongRecOn with
  | ind n ih =>
    intro h
    rw [Nat.toDigits_eq_if hb] at h
    split at h
    · exact ⟨n, ‹n < b›, List.mem_singleton.1 h⟩
    · rcases List.mem_append.1 h with h | h
      · exact ih (n / b) (Nat.div_lt_self (by omega) hb) h
      · exact ⟨n % b, Nat.mod_lt n (by omega), List.mem_singleton.1 h⟩

theorem codePoint?_hexUpper : ∀ n < 32, codePoint? (hexUpper n) = some (Char.ofNat n) := by
  decide

/-- The character can stand inside of braces and of quotes. -/
structure FitsBraces (d : Char) : Prop where
  le : ' ' ≤ d
  ne_backslash : d ≠ '\\'
  ne_quote : d ≠ '"'
  ne_brace : d ≠ '\x7d'

theorem fitsBraces_of_hexDigit? {d : Char} {k : Nat} (h : hexDigit? d = some k) :
    FitsBraces d := by
  have hle : ' ' ≤ d := by
    rw [hexDigit?] at h
    split_ifs at h with hdecimal hlower hupper
    · exact Char.le_trans (by decide) hdecimal.1
    · exact Char.le_trans (by decide) hlower.1
    · exact Char.le_trans (by decide) hupper.1
  refine ⟨hle, ?_, ?_, ?_⟩
  all_goals
    rintro rfl
    cases h

theorem exists_hexDigit?_of_mem {digits : List Char} {n : Nat} (h : hexValue? digits = some n) :
    ∀ d ∈ digits, ∃ k, hexDigit? d = some k := by
  suffices hfold : ∀ value, digits.foldlM
      (fun value c => (hexDigit? c).map (16 * value + ·)) value = some n →
      ∀ d ∈ digits, ∃ k, hexDigit? d = some k from hfold 0 h
  clear h
  induction digits with
  | nil => exact fun _ _ => List.forall_mem_nil _
  | cons d digits ih =>
    intro value h
    rw [List.foldlM_cons] at h
    obtain ⟨value', hd, hdigits⟩ := Option.bind_eq_some_iff.1 h
    obtain ⟨k, hk, -⟩ := Option.map_eq_some_iff.1 hd
    exact List.forall_mem_cons.2 ⟨⟨k, hk⟩, ih value' hdigits⟩

theorem fitsBraces_of_digitsScalar? {digits : List Char} {c : Char}
    (h : digitsScalar? digits = some c) : ∀ d ∈ digits, FitsBraces d := by
  intro d hd
  rw [digitsScalar?, if_neg (by simpa using List.ne_nil_of_mem hd)] at h
  obtain ⟨n, hn, -⟩ := Option.bind_eq_some_iff.1 h
  obtain ⟨k, hk⟩ := exists_hexDigit?_of_mem hn d hd
  exact fitsBraces_of_hexDigit? hk

/-- **No brace, quote or backslash stands in the digits of a code point.** -/
theorem fitsBraces_of_codePoint? {digits : List Char} {c : Char}
    (h : codePoint? digits = some c) : ∀ d ∈ digits, FitsBraces d := by
  rw [codePoint?.eq_def] at h
  split at h
  · have hplus : FitsBraces '+' := ⟨by decide, by decide, by decide, by decide⟩
    exact List.forall_mem_cons.2 ⟨hplus, fitsBraces_of_digitsScalar? h⟩
  · exact fitsBraces_of_digitsScalar? h

/-! ### Spellings -/

/-- **A spelling of a character** between quotes. -/
inductive Denotes : List Char → Char → Prop
  /-- The character as it is. -/
  | plain {c : Char} (backslash : c ≠ '\\') (quote : c ≠ '"') : Denotes [c] c
  /-- A letter behind a backslash. -/
  | letter {letter c : Char} (letter_eq : escapedLetter? letter = some c) :
      Denotes ['\\', letter] c
  /-- The code point in braces. -/
  | codePoint {digits : List Char} {c : Char} (digits_eq : codePoint? digits = some c) :
      Denotes ('\\' :: 'u' :: '\x7b' :: (digits ++ ['\x7d'])) c

theorem Denotes.length_pos {spelling : List Char} {c : Char} (h : Denotes spelling c) :
    0 < spelling.length := by
  cases h <;> exact Nat.succ_pos _

/-- A spelling of a text has a spelling of each of its characters. -/
inductive DenotesAll : List Char → List Char → Prop
  | nil : DenotesAll [] []
  | cons {spelling body s : List Char} {c : Char} (head : Denotes spelling c)
      (tail : DenotesAll body s) : DenotesAll (spelling ++ body) (c :: s)

/-! ### Writing -/

theorem of_escapedLetter? {letter c : Char} (h : escapedLetter? letter = some c) :
    ' ' ≤ letter ∧ letter ≠ 'u' := by
  rw [escapedLetter?] at h
  split_ifs at h
  all_goals
    subst letter
    decide

/-- **What is written for a character.** -/
theorem escapeChar_cases (c : Char) :
    (∃ letter, escapeChar c = ['\\', letter] ∧ escapedLetter? letter = some c) ∨
    (∃ digits, escapeChar c = '\\' :: 'u' :: '\x7b' :: (digits ++ ['\x7d']) ∧
      codePoint? digits = some c) ∨
    (escapeChar c = [c] ∧ ' ' ≤ c ∧ c ≠ '\\' ∧ c ≠ '"') := by
  rw [escapeChar]
  by_cases hbackslash : c = '\\'
  · exact .inl ⟨'\\', by simp [hbackslash, escapedLetter?]⟩
  by_cases hquote : c = '"'
  · exact .inl ⟨'"', by simp [hquote, escapedLetter?]⟩
  by_cases hfeed : c = '\n'
  · exact .inl ⟨'n', by simp [hfeed, escapedLetter?]⟩
  by_cases hreturn : c = '\r'
  · exact .inl ⟨'r', by simp [hreturn, escapedLetter?]⟩
  by_cases htab : c = '\t'
  · exact .inl ⟨'t', by simp [htab, escapedLetter?]⟩
  rw [if_neg hbackslash, if_neg hquote, if_neg hfeed, if_neg hreturn, if_neg htab]
  by_cases hcontrol : c < ' '
  · have hdigits := codePoint?_hexUpper c.toNat hcontrol
    rw [Char.ofNat_toNat] at hdigits
    exact .inr (.inl ⟨hexUpper c.toNat, if_pos hcontrol, hdigits⟩)
  · exact .inr (.inr ⟨if_neg hcontrol, Char.not_lt.1 hcontrol, hbackslash, hquote⟩)

theorem denotes_escapeChar (c : Char) : Denotes (escapeChar c) c := by
  rcases escapeChar_cases c with ⟨letter, heq, h⟩ | ⟨digits, heq, h⟩ | ⟨heq, -, hc, hquote⟩
  · exact heq ▸ .letter h
  · exact heq ▸ .codePoint h
  · exact heq ▸ .plain hc hquote

theorem denotesAll_escape (s : List Char) : DenotesAll (escape s) s := by
  induction s with
  | nil => exact .nil
  | cons c s ih => exact .cons (denotes_escapeChar c) ih

theorem le_of_mem_escapeChar {c d : Char} (h : d ∈ escapeChar c) : ' ' ≤ d := by
  rcases escapeChar_cases c with ⟨letter, heq, hletter⟩ | ⟨digits, heq, hdigits⟩ | ⟨heq, hc, -, -⟩
  · rw [heq, List.mem_pair] at h
    rcases h with rfl | rfl
    · decide
    · exact (of_escapedLetter? hletter).1
  · rw [heq, List.mem_cons, List.mem_cons, List.mem_cons, List.mem_append, List.mem_singleton] at h
    rcases h with rfl | rfl | rfl | h | rfl
    · decide
    · decide
    · decide
    · exact (fitsBraces_of_codePoint? hdigits d h).le
    · decide
  · rw [heq, List.mem_singleton] at h
    exact h ▸ hc

/-- **Escaped text has no control characters.** -/
theorem le_of_mem_escape {s : List Char} {d : Char} (h : d ∈ escape s) : ' ' ≤ d := by
  obtain ⟨c, -, hd⟩ := List.mem_flatMap.1 h
  exact le_of_mem_escapeChar hd

/-! ### Reading -/

/-- Digits are read up to the brace behind them. -/
theorem unescapeFrom?_digits {digits : List Char} (h : ∀ d ∈ digits, d ≠ '\x7d') :
    ∀ (seen rest : List Char), unescapeFrom? (.digits seen) (digits ++ '\x7d' :: rest) =
      (codePoint? (seen.reverse ++ digits)).bind fun c =>
        (unescapeFrom? .plain rest).map (c :: ·) := by
  induction digits with
  | nil =>
    intro seen rest
    rw [List.nil_append, unescapeFrom?, if_pos rfl, List.append_nil]
    cases codePoint? seen.reverse <;> rfl
  | cons d digits ih =>
    obtain ⟨hd, hdigits⟩ := List.forall_mem_cons.1 h
    intro seen rest
    rw [List.cons_append, unescapeFrom?, if_neg hd, ih hdigits, List.reverse_cons, List.append_assoc]
    rfl

/-- **Reading a spelling of a character.** -/
theorem unescapeFrom?_append {spelling : List Char} {c : Char} (h : Denotes spelling c)
    (rest : List Char) : unescapeFrom? .plain (spelling ++ rest) =
      (unescapeFrom? .plain rest).map (c :: ·) := by
  cases h with
  | plain hc hquote => rw [List.singleton_append, unescapeFrom?, if_neg hc]
  | letter hletter =>
    rw [List.cons_append, List.cons_append, List.nil_append, unescapeFrom?, if_pos rfl,
      unescapeFrom?, if_neg (of_escapedLetter? hletter).2, hletter]
  | @codePoint digits c hdigits =>
    have hbrace : ∀ d ∈ digits, d ≠ '\x7d' :=
      fun d hd => (fitsBraces_of_codePoint? hdigits d hd).ne_brace
    rw [List.cons_append, List.cons_append, List.cons_append, List.append_assoc,
      unescapeFrom?, if_pos rfl, unescapeFrom?, if_pos rfl, unescapeFrom?, if_pos rfl]
    refine (unescapeFrom?_digits hbrace [] rest).trans ?_
    rw [List.reverse_nil, List.nil_append, hdigits]
    rfl

/-- **A text is read from each of its spellings.** -/
theorem DenotesAll.unescape?_eq {body s : List Char} (h : DenotesAll body s) :
    unescape? body = some s := by
  rw [unescape?]
  induction h with
  | nil => rfl
  | cons head _ ih => rw [unescapeFrom?_append head, ih, Option.map_some]

/-- **Escaped text is read back.** -/
theorem unescape?_escape (s : List Char) : unescape? (escape s) = some s :=
  (denotesAll_escape s).unescape?_eq

theorem escape_injective : Function.Injective escape := by
  intro s t h
  have hread := congrArg unescape? h
  rw [unescape?_escape, unescape?_escape] at hread
  exact Option.some.inj hread

theorem exists_digits_of_unescapeFrom? {s t : List Char} :
    ∀ seen, unescapeFrom? (.digits seen) t = some s → ∃ digits rest c s',
      t = digits ++ '\x7d' :: rest ∧ s = c :: s' ∧ codePoint? (seen.reverse ++ digits) = some c ∧
        unescapeFrom? .plain rest = some s' := by
  induction t with
  | nil =>
    intro seen h
    cases h
  | cons d t ih =>
    intro seen h
    rw [unescapeFrom?] at h
    split_ifs at h with hd
    · split at h
      · obtain ⟨s', hrest, hs⟩ := Option.map_eq_some_iff.1 h
        exact ⟨[], t, _, s', by rw [hd]; rfl, hs.symm, by rwa [List.append_nil], hrest⟩
      · cases h
    · obtain ⟨digits, rest, c, s', rfl, hs, hdigits, hrest⟩ := ih (d :: seen) h
      rw [List.reverse_cons, List.append_assoc] at hdigits
      exact ⟨d :: digits, rest, c, s', rfl, hs, hdigits, hrest⟩

/-- What is read behind a backslash is a spelling with it. -/
theorem exists_denotes_of_backslash {s t : List Char}
    (h : unescapeFrom? .backslash t = some s) : ∃ spelling rest c s',
      '\\' :: t = spelling ++ rest ∧ s = c :: s' ∧ Denotes spelling c ∧
        unescapeFrom? .plain rest = some s' := by
  cases t with
  | nil => cases h
  | cons letter t =>
    rw [unescapeFrom?] at h
    split_ifs at h with hletter
    · subst letter
      cases t with
      | nil => cases h
      | cons brace t =>
        rw [unescapeFrom?] at h
        split_ifs at h with hbrace
        subst brace
        obtain ⟨digits, rest, c, s', rfl, hs, hdigits, hrest⟩ :=
          exists_digits_of_unescapeFrom? [] h
        exact ⟨_, rest, c, s', by simp, hs, .codePoint hdigits, hrest⟩
    · split at h
      · obtain ⟨s', hrest, hs⟩ := Option.map_eq_some_iff.1 h
        exact ⟨_, t, _, s', rfl, hs.symm, .letter ‹_›, hrest⟩
      · cases h

/-- **Nothing but spellings is read**, apart from bare quotes. -/
theorem exists_denotes_of_unescapeFrom? {d : Char} {s t : List Char} (hquote : d ≠ '"')
    (h : unescapeFrom? .plain (d :: t) = some s) : ∃ spelling rest c s',
      d :: t = spelling ++ rest ∧ s = c :: s' ∧ Denotes spelling c ∧
        unescapeFrom? .plain rest = some s' := by
  rw [unescapeFrom?] at h
  split_ifs at h with hd
  · exact hd ▸ exists_denotes_of_backslash h
  · obtain ⟨s', hrest, hs⟩ := Option.map_eq_some_iff.1 h
    exact ⟨[d], t, d, s', rfl, hs.symm, .plain hd hquote, hrest⟩

/-! ### Quoted text -/

theorem isInvisible_of_mem_hexLower {n : Nat} {c : Char} (h : c ∈ hexLower n) :
    isInvisible c = false := by
  obtain ⟨k, hk, rfl⟩ := exists_digitChar_of_mem_toDigits (by decide) n h
  have hdigits : ∀ k < 16, isInvisible k.digitChar = false := by decide
  exact hdigits k hk

theorem isInvisible_of_mem_quotedChar {c d : Char} (h : d ∈ quotedChar c) :
    isInvisible d = false := by
  rw [quotedChar] at h
  split_ifs at h
  -- a letter behind a backslash
  iterate 6
    · simp only [List.mem_cons, List.not_mem_nil, or_false] at h
      rcases h with rfl | rfl <;> decide
  -- a code point in braces
  · simp only [List.mem_cons, List.mem_append, List.not_mem_nil, or_false] at h
    obtain rfl | rfl | rfl | h | rfl := h
    · decide
    · decide
    · decide
    · exact isInvisible_of_mem_hexLower h
    · decide
  · rw [List.mem_singleton.1 h]
    exact Bool.eq_false_iff.2 ‹¬ isInvisible c = true›

/-- **Every character of quoted text can be seen.** -/
theorem isInvisible_of_mem_quoted {s : List Char} {c : Char} (h : c ∈ (quoted s).toList) :
    isInvisible c = false := by
  rw [quoted, String.toList_ofList, List.mem_cons, List.mem_append, List.mem_singleton] at h
  rcases h with rfl | h | rfl
  · decide
  · obtain ⟨d, -, hd⟩ := List.mem_flatMap.1 h
    exact isInvisible_of_mem_quotedChar hd
  · decide

theorem lineFeed_notMem_quoted (s : List Char) : '\n' ∉ (quoted s).toList :=
  fun h => absurd (isInvisible_of_mem_quoted h) (by decide)

example : quoted ['n', '\u0301', 'o', '\u0378'] = "\"n\\u\x7b301\x7do\\u\x7b378\x7d\"" := by
  decide +kernel

end HtmlTape.Text
