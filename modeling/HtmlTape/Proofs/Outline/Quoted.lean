import HtmlTape.Outline.Line
import HtmlTape.Proofs.Text.Escaped

/-!
# Quoted literals

The first quote that no backslash escapes is taken for the end of a literal, and only then the reader
of escapes reads what stands inside.  Both end every spelling of a character at the same place: a
backslash takes the next character with it, and nothing but digits stands between braces, so no
spelling closes the quotes (`upToQuote?_append`).  What is read are the literals, each of them as the
text that is spelled in it and whatever follows (`quotedText_eq_ok_iff`).  Escaped text in quotes is
such a literal (`quotedText_escape`).
-/

namespace HtmlTape.Outline

/-! ### The closing quote -/

/-- What a backslash stands before closes no quotes. -/
theorem upToQuote?_backslash (c : Char) (rest : List Char) :
    upToQuote? false ('\\' :: c :: rest) =
      (upToQuote? false rest).map fun (inside, after) => ('\\' :: c :: inside, after) := by
  rw [upToQuote?, upToQuote?]
  simp [Function.comp_def]

theorem upToQuote?_plain {s : List Char} (hs : ∀ c ∈ s, c ≠ '\\' ∧ c ≠ '"') (rest : List Char) :
    upToQuote? false (s ++ rest) =
      (upToQuote? false rest).map fun (inside, after) => (s ++ inside, after) := by
  induction s with
  | nil => exact Option.map_id'.symm
  | cons c s ih =>
    obtain ⟨⟨hbackslash, hquote⟩, hs⟩ := List.forall_mem_cons.1 hs
    have hclosing : (c == '"') = false := beq_false_of_ne hquote
    have hescape : (c == '\\') = false := beq_false_of_ne hbackslash
    rw [List.cons_append, upToQuote?, hclosing, hescape]
    simp [ih hs, Function.comp_def]

/-- **A spelling of a character closes no quotes.** -/
theorem upToQuote?_append {spelling : List Char} {c : Char} (h : Text.Denotes spelling c)
    (rest : List Char) : upToQuote? false (spelling ++ rest) =
      (upToQuote? false rest).map fun (inside, after) => (spelling ++ inside, after) := by
  cases h with
  | plain hbackslash hquote =>
    exact upToQuote?_plain (List.forall_mem_singleton.2 ⟨hbackslash, hquote⟩) rest
  | @letter letter c _ => exact upToQuote?_backslash letter rest
  | @codePoint digits c hdigits =>
    have hbraces : ∀ d ∈ '\x7b' :: (digits ++ ['\x7d']), d ≠ '\\' ∧ d ≠ '"' := by
      intro d hd
      rcases List.mem_cons.1 hd with rfl | hd
      · decide
      rcases List.mem_append.1 hd with hd | hd
      · have hfits := Text.fitsBraces_of_codePoint? hdigits d hd
        exact ⟨hfits.ne_backslash, hfits.ne_quote⟩
      · rw [List.mem_singleton.1 hd]
        decide
    rw [List.cons_append, List.cons_append, upToQuote?_backslash, upToQuote?_plain hbraces,
      Option.map_map]
    rfl

/-- The quote behind a spelling of a text is the first one that closes. -/
theorem upToQuote?_of_denotesAll {body s : List Char} (h : Text.DenotesAll body s)
    (rest : List Char) : upToQuote? false (body ++ '"' :: rest) = some (body, rest) := by
  induction h with
  | nil => rfl
  | cons head _ ih =>
    rw [List.append_assoc, upToQuote?_append head, ih]
    rfl

theorem eq_of_upToQuote? {s body rest : List Char} :
    ∀ {escaped : Bool}, upToQuote? escaped s = some (body, rest) → s = body ++ '"' :: rest := by
  induction s generalizing body with
  | nil =>
    intro escaped h
    cases h
  | cons c s ih =>
    intro escaped h
    rw [upToQuote?] at h
    split_ifs at h with hclosing
    · obtain ⟨rfl, rfl⟩ := Prod.mk.inj (Option.some.inj h)
      rw [eq_of_beq (Bool.and_eq_true_iff.1 hclosing).2]
      rfl
    · obtain ⟨⟨body', rest'⟩, hread, heq⟩ := Option.map_eq_some_iff.1 h
      obtain ⟨rfl, rfl⟩ := Prod.mk.inj heq
      rw [ih hread]
      rfl

/-! ### Literals -/

/-- **What is read between quotes is spelled there.** -/
theorem denotesAll_of_unescapeFrom? {body s rest : List Char}
    (hclosing : upToQuote? false (body ++ '"' :: rest) = some (body, rest))
    (hread : Text.unescapeFrom? .plain body = some s) : Text.DenotesAll body s := by
  -- by the length, as a spelling is read at a time
  induction hn : body.length using Nat.strongRecOn generalizing body s with
  | ind n ih =>
    cases body with
    | nil =>
      cases hread
      exact .nil
    | cons d body =>
      -- a bare quote would have closed the literal
      have hquote : d ≠ '"' := by
        rintro rfl
        cases hclosing
      obtain ⟨spelling, body', c, s', heq, rfl, hdenotes, hread'⟩ :=
        Text.exists_denotes_of_unescapeFrom? hquote hread
      have hpos := hdenotes.length_pos
      rw [heq, List.length_append] at hn
      rw [heq, List.append_assoc, upToQuote?_append hdenotes] at hclosing
      obtain ⟨⟨inside, after⟩, hclosing', hpair⟩ := Option.map_eq_some_iff.1 hclosing
      obtain ⟨hinside, rfl⟩ := Prod.mk.inj hpair
      obtain rfl := List.append_cancel_left hinside
      rw [heq]
      exact .cons hdenotes (ih inside.length (by omega) hclosing' hread' rfl)

/-- **The literals are what is read**, each of them as the text that is spelled in it. -/
theorem quotedText_eq_ok_iff {s text rest : List Char} :
    quotedText s = .ok (text, rest) ↔
      ∃ body, s = '"' :: (body ++ '"' :: rest) ∧ Text.DenotesAll body text := by
  constructor
  · intro h
    rw [quotedText.eq_def] at h
    split at h
    · split at h
      · cases h
      · rename_i body inside after hclosing
        split at h
        · cases h
        · rename_i text' hread
          obtain ⟨rfl, rfl⟩ := Prod.mk.inj (Except.ok.inj h)
          obtain rfl := eq_of_upToQuote? hclosing
          exact ⟨inside, rfl, denotesAll_of_unescapeFrom? hclosing hread⟩
    · cases h
  · rintro ⟨body, rfl, h⟩
    simp only [quotedText, upToQuote?_of_denotesAll h rest, h.unescape?_eq]

/-- A code point may be spelled in other ways than the one that is written. -/
example : quotedText "\"\\u\x7b+041\x7d\\\\\" id".toList = .ok (['A', '\\'], " id".toList) := rfl

/-- **Escaped text is read back from quotes**, whatever follows them. -/
theorem quotedText_escape (s rest : List Char) :
    quotedText ('"' :: (Text.escape s ++ '"' :: rest)) = .ok (s, rest) :=
  quotedText_eq_ok_iff.2 ⟨Text.escape s, rfl, Text.denotesAll_escape s⟩

/-- **Quoted literals.**  Escaped text in quotes is read back whatever follows, and so it is without
the quotes.  No two texts are escaped alike, and escaped text has no control characters.  The reader
of quotes accepts all spellings of a text, and nothing else. -/
theorem quotedText_reads_literals :
    (∀ s rest, quotedText ('"' :: (Text.escape s ++ '"' :: rest)) = .ok (s, rest)) ∧
      (∀ s, Text.unescape? (Text.escape s) = some s) ∧ Function.Injective Text.escape ∧
      (∀ s, ∀ c ∈ Text.escape s, ' ' ≤ c) ∧
      ∀ s text rest, quotedText s = .ok (text, rest) ↔
        ∃ body, s = '"' :: (body ++ '"' :: rest) ∧ Text.DenotesAll body text :=
  ⟨quotedText_escape, Text.unescape?_escape, Text.escape_injective,
    fun _ _ => Text.le_of_mem_escape, fun _ _ _ => quotedText_eq_ok_iff⟩

/-- Quotes, a line feed, a control character, and what looks like an escape. -/
def mixture : List Char := "\\u\x7b22\x7d \"\n\x01\"".toList

/-- Neither the quotes in the text nor those behind the literal are taken for its end. -/
theorem quotedText_reads_literals_mixture :
    Text.escape mixture = "\\\\u\x7b22\x7d \\\"\\n\\u\x7b01\x7d\\\"".toList ∧
      quotedText ('"' :: (Text.escape mixture ++ '"' :: "\\\"\"".toList)) =
        .ok (mixture, "\\\"\"".toList) ∧
      Text.unescape? (Text.escape mixture) = some mixture ∧
      Text.escape mixture ≠ Text.escape ['"'] ∧ ' ' ≤ '\x7d' :=
  have h := quotedText_reads_literals
  ⟨rfl, h.1 mixture _, h.2.1 mixture, h.2.2.1.ne (by decide), h.2.2.2.1 mixture '\x7d' (by decide)⟩

end HtmlTape.Outline
