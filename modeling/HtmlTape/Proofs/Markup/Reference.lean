import HtmlTape.Markup.Entity

/-!
# Well-formed character references

`IsReference r`: the characters of `r` are a well-formed character reference, from its `&` to its
semicolon.  The recogniser answers a length exactly when a reference of this length stands at the
start of a text (`referenceLength?_eq_some_iff`), whatever comes after it.

* `IsReference.eq_cons`: after its `&` a reference has letters, digits, `#` and its semicolon only.
  So it ends before any other character (`referenceLength?_append_cons`).
* `scan_induction`: a text is read from left to right, a reference or a character at a time.
-/

namespace HtmlTape.Markup

/-! ### The grammar -/

/-- The characters are a well-formed character reference. -/
inductive IsReference : List Char → Prop
  /-- A letter and at most 31 letters and digits. -/
  | named {c : Char} {name : List Char} (letter : isLetter c)
      (alphanumeric : ∀ d ∈ name, isAlphanumeric d) (bound : name.length ≤ 31) :
      IsReference ('&' :: c :: name ++ [';'])
  /-- One to seven decimal digits. -/
  | decimal {digits : List Char} (digit : ∀ d ∈ digits, isDigit d) (some : digits ≠ [])
      (bound : digits.length ≤ 7) : IsReference ('&' :: '#' :: digits ++ [';'])
  /-- One to six hexadecimal digits after an `x` of either case. -/
  | hexadecimal {x : Char} {digits : List Char} (mark : x = 'x' ∨ x = 'X')
      (digit : ∀ d ∈ digits, isHexDigit d) (some : digits ≠ []) (bound : digits.length ≤ 6) :
      IsReference ('&' :: '#' :: x :: digits ++ [';'])

def isReferenceChar (c : Char) : Bool :=
  isAlphanumeric c || c == '#' || c == ';'

theorem isAlphanumeric_of_isHexDigit {c : Char} (h : isHexDigit c) : isAlphanumeric c := by
  simp only [isHexDigit, isAlphanumeric, isLetter, isDigit, Bool.or_eq_true, Bool.and_eq_true,
    decide_eq_true_eq] at h ⊢
  rcases h with (h | ⟨hle, hge⟩) | ⟨hle, hge⟩
  · exact .inr h
  · exact .inl (.inl ⟨hle, Char.le_trans hge (by decide)⟩)
  · exact .inl (.inr ⟨hle, Char.le_trans hge (by decide)⟩)

theorem isReferenceChar_of_isAlphanumeric {c : Char} (h : isAlphanumeric c) :
    isReferenceChar c := by
  rw [isReferenceChar, h]
  rfl

/-- **A reference is an `&` and characters that are no `&`.** -/
theorem IsReference.eq_cons {r : List Char} (h : IsReference r) :
    ∃ tail, r = '&' :: tail ∧ ∀ c ∈ tail, isReferenceChar c := by
  cases h with
  | @named c name letter alphanumeric _ =>
    refine ⟨c :: name ++ [';'], rfl, fun d hd => ?_⟩
    rw [List.mem_append, List.mem_cons, List.mem_singleton] at hd
    rcases hd with (rfl | hd) | rfl
    · exact isReferenceChar_of_isAlphanumeric (by rw [isAlphanumeric, letter]; rfl)
    · exact isReferenceChar_of_isAlphanumeric (alphanumeric d hd)
    · rfl
  | @decimal digits digit _ _ =>
    refine ⟨'#' :: digits ++ [';'], rfl, fun d hd => ?_⟩
    rw [List.mem_append, List.mem_cons, List.mem_singleton] at hd
    rcases hd with (rfl | hd) | rfl
    · rfl
    · exact isReferenceChar_of_isAlphanumeric (by rw [isAlphanumeric, digit d hd, Bool.or_true])
    · rfl
  | @hexadecimal x digits mark digit _ _ =>
    refine ⟨'#' :: x :: digits ++ [';'], rfl, fun d hd => ?_⟩
    rw [List.mem_append, List.mem_cons, List.mem_cons, List.mem_singleton] at hd
    rcases hd with (rfl | rfl | hd) | rfl
    · rfl
    · rcases mark with rfl | rfl <;> rfl
    · exact isReferenceChar_of_isAlphanumeric (isAlphanumeric_of_isHexDigit (digit d hd))
    · rfl

theorem IsReference.length_pos {r : List Char} (h : IsReference r) : 0 < r.length := by
  obtain ⟨tail, rfl, _⟩ := h.eq_cons
  exact Nat.succ_pos _

theorem IsReference.notMem {r : List Char} (h : IsReference r) {c : Char} (hne : c ≠ '&')
    (hc : isReferenceChar c = false) : c ∉ r := by
  obtain ⟨tail, rfl, htail⟩ := h.eq_cons
  intro hmem
  rcases List.mem_cons.1 hmem with rfl | hmem
  · exact hne rfl
  · rw [htail c hmem] at hc
    cases hc

/-! ### The recogniser -/

theorem runLength?_eq_some_iff {accepts : Char → Bool} (hend : accepts ';' = false)
    {limit n : Nat} {s : List Char} : runLength? accepts limit s = some n ↔
      ∃ run rest, s = run ++ ';' :: rest ∧ (∀ c ∈ run, accepts c) ∧ run ≠ [] ∧
        run.length ≤ limit ∧ n = run.length + 1 := by
  constructor
  · intro h
    rw [runLength?] at h
    split at h
    · rename_i hrun
      obtain ⟨hpos, hlimit, hsemicolon⟩ := hrun
      have hsplit : s = s.takeWhile accepts ++ s.dropWhile accepts :=
        List.takeWhile_append_dropWhile.symm
      have hhead : (s.dropWhile accepts)[0]? = some ';' := by
        have htake : (s.takeWhile accepts ++ s.dropWhile accepts)[(s.takeWhile accepts).length]? =
            some ';' := hsplit ▸ hsemicolon
        rw [List.getElem?_append_right (Nat.le_refl _), Nat.sub_self] at htake
        exact htake
      obtain ⟨rest, hrest⟩ : ∃ rest, s.dropWhile accepts = ';' :: rest := by
        cases hdrop : s.dropWhile accepts with
        | nil =>
          rw [hdrop] at hhead
          cases hhead
        | cons c rest =>
          rw [hdrop] at hhead
          cases hhead
          exact ⟨rest, rfl⟩
      refine ⟨s.takeWhile accepts, rest, hrest ▸ hsplit, List.all_eq_true.1 List.all_takeWhile,
        List.length_pos_iff.1 hpos, hlimit, ?_⟩
      exact (Option.some.inj h).symm
    · cases h
  · rintro ⟨run, rest, rfl, hrun, hne, hlimit, rfl⟩
    have htake : (run ++ ';' :: rest).takeWhile accepts = run := by
      rw [List.takeWhile_append_of_pos hrun, List.takeWhile_cons_of_neg (by rw [hend]; simp),
        List.append_nil]
    have hsemicolon : (run ++ ';' :: rest)[run.length]? = some ';' := by
      rw [List.getElem?_append_right (Nat.le_refl _), Nat.sub_self]
      rfl
    rw [runLength?]
    simp only [htake]
    exact if_pos ⟨List.length_pos_iff.2 hne, hlimit, hsemicolon⟩

theorem referenceLength?_letter {c : Char} (hc : isLetter c) (s : List Char) :
    referenceLength? ('&' :: c :: s) =
      (runLength? isAlphanumeric nameLimit (c :: s)).map (· + 1) := by
  rw [referenceLength?.eq_def]
  split
  · rename_i heq
    cases heq
    exact absurd hc (by decide)
  · rename_i heq
    cases heq
    exact absurd hc (by decide)
  · rename_i heq
    cases heq
    exact absurd hc (by decide)
  · rename_i heq
    cases heq
    exact if_pos hc
  · rename_i hno
    exact (hno c s rfl).elim

theorem referenceLength?_decimal {d : Char} (hx : d ≠ 'x') (hX : d ≠ 'X') (s : List Char) :
    referenceLength? ('&' :: '#' :: d :: s) =
      (runLength? isDigit decimalLimit (d :: s)).map (· + 2) := by
  rw [referenceLength?.eq_def]
  split
  · rename_i heq
    cases heq
    exact absurd rfl hx
  · rename_i heq
    cases heq
    exact absurd rfl hX
  · rename_i heq
    cases heq
    rfl
  · rename_i hno heq
    cases heq
    exact (hno rfl).elim
  · rename_i hno _
    exact (hno _ rfl).elim

theorem referenceLength?_hexadecimal {x : Char} (hx : x = 'x' ∨ x = 'X') (s : List Char) :
    referenceLength? ('&' :: '#' :: x :: s) =
      (runLength? isHexDigit hexLimit s).map (· + 3) := by
  rcases hx with rfl | rfl <;> rfl

theorem referenceLength?_of_ne {c : Char} (h : c ≠ '&') (s : List Char) :
    referenceLength? (c :: s) = none := by
  rw [referenceLength?.eq_def]
  split
  all_goals first
    | rfl
    | rename_i heq
      cases heq
      exact absurd rfl h

/-- A reference is recognised, whatever comes after it. -/
theorem IsReference.referenceLength? {r : List Char} (h : IsReference r) (rest : List Char) :
    referenceLength? (r ++ rest) = some r.length := by
  cases h with
  | @named c name letter alphanumeric bound =>
    have hrun : runLength? isAlphanumeric nameLimit (c :: (name ++ ';' :: rest)) =
        some (name.length + 2) := by
      refine (runLength?_eq_some_iff rfl).2 ⟨c :: name, rest, rfl, fun d hd => ?_,
        List.cons_ne_nil c name, Nat.succ_le_succ bound, rfl⟩
      rcases List.mem_cons.1 hd with rfl | hd
      · rw [isAlphanumeric, letter]
        rfl
      · exact alphanumeric d hd
    have htext : '&' :: c :: name ++ [';'] ++ rest = '&' :: c :: (name ++ ';' :: rest) := by
      rw [List.append_assoc]
      rfl
    rw [htext, referenceLength?_letter letter, hrun]
    simp
  | @decimal digits digit some bound =>
    have hrun : runLength? isDigit decimalLimit (digits ++ ';' :: rest) =
        .some (digits.length + 1) :=
      (runLength?_eq_some_iff rfl).2 ⟨digits, rest, rfl, digit, some, bound, rfl⟩
    have htext : '&' :: '#' :: digits ++ [';'] ++ rest =
        '&' :: '#' :: (digits ++ ';' :: rest) := by
      rw [List.append_assoc]
      rfl
    cases digits with
    | nil => exact absurd rfl some
    | cons d digits =>
      have hd : isDigit d := digit d List.mem_cons_self
      rw [htext, List.cons_append, referenceLength?_decimal (by rintro rfl; cases hd)
        (by rintro rfl; cases hd), ← List.cons_append, hrun]
      simp
  | @hexadecimal x digits mark digit some bound =>
    have hrun : runLength? isHexDigit hexLimit (digits ++ ';' :: rest) =
        .some (digits.length + 1) :=
      (runLength?_eq_some_iff rfl).2 ⟨digits, rest, rfl, digit, some, bound, rfl⟩
    have htext : '&' :: '#' :: x :: digits ++ [';'] ++ rest =
        '&' :: '#' :: x :: (digits ++ ';' :: rest) := by
      rw [List.append_assoc]
      rfl
    rw [htext, referenceLength?_hexadecimal mark, hrun]
    simp

theorem exists_isReference_of_referenceLength? {s : List Char} {n : Nat}
    (h : referenceLength? s = some n) :
    ∃ r rest, s = r ++ rest ∧ IsReference r ∧ r.length = n := by
  -- The hexadecimal forms differ in the case of their mark only.
  have hhex : ∀ x : Char, x = 'x' ∨ x = 'X' → ∀ s,
      (runLength? isHexDigit hexLimit s).map (· + 3) = some n →
      ∃ r rest, '&' :: '#' :: x :: s = r ++ rest ∧ IsReference r ∧ r.length = n := by
    intro x hx s h
    obtain ⟨m, hm, rfl⟩ := Option.map_eq_some_iff.1 h
    obtain ⟨digits, rest, rfl, hdigit, hne, hlimit, rfl⟩ := (runLength?_eq_some_iff rfl).1 hm
    refine ⟨_, rest, ?_, .hexadecimal hx hdigit hne hlimit, by simp⟩
    simp
  rw [referenceLength?.eq_def] at h
  split at h
  · exact hhex 'x' (.inl rfl) _ h
  · exact hhex 'X' (.inr rfl) _ h
  · obtain ⟨m, hm, rfl⟩ := Option.map_eq_some_iff.1 h
    obtain ⟨digits, rest, rfl, hdigit, hne, hlimit, rfl⟩ := (runLength?_eq_some_iff rfl).1 hm
    refine ⟨_, rest, ?_, .decimal hdigit hne hlimit, by simp⟩
    simp
  · rename_i c s _
    split at h
    · rename_i hc
      obtain ⟨m, hm, rfl⟩ := Option.map_eq_some_iff.1 h
      obtain ⟨run, rest, hs, hrun, hne, hlimit, rfl⟩ := (runLength?_eq_some_iff rfl).1 hm
      cases run with
      | nil => exact absurd rfl hne
      | cons d name =>
        cases hs
        refine ⟨_, rest, ?_, .named hc (fun d hd => hrun d (List.mem_cons_of_mem _ hd))
          (Nat.le_of_succ_le_succ hlimit), by simp⟩
        simp
    · cases h
  · cases h

/-- **The recogniser answers a length exactly when a well-formed reference of this length stands at
the start of the text.** -/
theorem referenceLength?_eq_some {s : List Char} {n : Nat} : referenceLength? s = some n ↔
    ∃ r rest, s = r ++ rest ∧ IsReference r ∧ r.length = n := by
  constructor
  · exact exists_isReference_of_referenceLength?
  · rintro ⟨r, rest, rfl, hr, rfl⟩
    exact hr.referenceLength? rest

theorem referenceLength?_append_cons {c : Char} (hne : c ≠ '&') (hc : isReferenceChar c = false)
    (a b : List Char) : referenceLength? (a ++ c :: b) = referenceLength? a := by
  apply Option.ext
  intro n
  rw [referenceLength?_eq_some, referenceLength?_eq_some]
  constructor
  · rintro ⟨r, rest, hsplit, hr, hn⟩
    rcases List.append_eq_append_iff.1 hsplit with ⟨t, rfl, ht⟩ | ⟨t, rfl, _⟩
    · cases t with
      | nil => exact ⟨a, [], (List.append_nil a).symm, by rwa [List.append_nil] at hr,
          by rwa [List.append_nil] at hn⟩
      | cons d t =>
        obtain ⟨rfl, _⟩ := List.cons.inj ht
        exact absurd (List.mem_append_right a List.mem_cons_self) (hr.notMem hne hc)
    · exact ⟨r, t, rfl, hr, hn⟩
  · rintro ⟨r, rest, rfl, hr, hn⟩
    exact ⟨r, rest ++ c :: b, List.append_assoc r rest _, hr, hn⟩

/-! ### Reading from left to right -/

/-- A text is empty, or starts with a reference, or with a character that starts none. -/
theorem scan_induction {motive : List Char → Prop} (nil : motive [])
    (reference : ∀ r rest, IsReference r → motive rest → motive (r ++ rest))
    (character : ∀ c rest, referenceLength? (c :: rest) = none → motive rest →
      motive (c :: rest)) (s : List Char) : motive s := by
  induction hn : s.length using Nat.strongRecOn generalizing s with
  | _ n ih =>
    cases s with
    | nil => exact nil
    | cons c s =>
      cases hlength : referenceLength? (c :: s) with
      | none => exact character c s hlength (ih s.length (by rw [← hn]; simp) s rfl)
      | some m =>
        obtain ⟨r, rest, hsplit, hr, _⟩ := referenceLength?_eq_some.1 hlength
        have hlt : rest.length < n := by
          rw [← hn, hsplit, List.length_append]
          exact Nat.lt_add_of_pos_left hr.length_pos
        rw [hsplit]
        exact reference r rest hr (ih rest.length hlt rest rfl)

end HtmlTape.Markup
