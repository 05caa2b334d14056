import HtmlTape.Text.Diff
import Mathlib.Order.Nat
import Mathlib.Order.Bounds.Basic

/-!
# First mismatches

Two lists of lines differ at an index where one side has a line and the other side has not, or has
another one (`DifferAt`).  A report compares a line that is missing as the mark that it shows for
it.  So it does not see a difference if the line of the one side reads like the mark, and the other
side has no line there (`Disguised`); it sees all others (`Visible`).

A report names a line exactly if it is the first one at which a difference can be seen, and shows
the lines around it, at most two on either side.  It thus names the first line at which the lists
differ, unless that line is disguised (`diffLines_names`).
-/

namespace HtmlTape.Text

variable {expected actual : List String} {i j n : Nat}

/-! ### Differences -/

/-- The sides differ at an index, as they do where one of them has no line. -/
def DifferAt (expected actual : List String) (i : Nat) : Prop :=
  expected[i]? ≠ actual[i]?

/-- A line reads like the mark for a missing one, and the other side has none. -/
def Disguised (expected actual : List String) (i : Nat) : Prop :=
  expected[i]? = none ∧ actual[i]? = some missingLine ∨
    expected[i]? = some missingLine ∧ actual[i]? = none

/-- A difference that is not disguised. -/
def Visible (expected actual : List String) (i : Nat) : Prop :=
  DifferAt expected actual i ∧ ¬ Disguised expected actual i

/-- **What a report compares**: it sees the differences that are not disguised. -/
theorem visible_iff : Visible expected actual i ↔
    expected.getD i missingLine ≠ actual.getD i missingLine := by
  rw [Visible, DifferAt, Disguised, List.getD_eq_getElem?_getD, List.getD_eq_getElem?_getD]
  cases expected[i]? <;> cases actual[i]? <;> simp [eq_comm]

theorem DifferAt.lt (h : DifferAt expected actual i) :
    i < max expected.length actual.length := by
  by_contra hge
  have hle := Nat.le_of_not_lt hge
  apply h
  rw [List.getElem?_eq_none (by omega), List.getElem?_eq_none (by omega)]

theorem ne_iff_exists_differAt :
    expected ≠ actual ↔ ∃ i, IsLeast {j | DifferAt expected actual j} i := by
  constructor
  · intro hne
    have hex : ∃ i, DifferAt expected actual i := by
      by_contra hnone
      exact hne (List.ext_getElem? fun i => by_contra fun hi => hnone ⟨i, hi⟩)
    classical exact ⟨_, Nat.isLeast_find hex⟩
  · rintro ⟨i, hi, -⟩ rfl
    exact hi rfl

/-! ### Looking for the first one -/

section Least

variable {p : Nat → Prop}

theorem isLeast_zero (h : p 0) : IsLeast {j | p j} i ↔ i = 0 :=
  ⟨fun hi => Nat.le_zero.1 (hi.2 h), fun hi => hi ▸ ⟨h, fun _ _ => Nat.zero_le _⟩⟩

theorem isLeast_succ (h : ¬ p 0) : IsLeast {j | p j} (i + 1) ↔ IsLeast {j | p (j + 1)} i := by
  refine and_congr_right fun _ => ⟨fun hle j hj => Nat.le_of_succ_le_succ (hle hj), ?_⟩
  intro hle j hj
  cases j with
  | zero => exact absurd hj h
  | succ j => exact Nat.succ_le_succ (hle hj)

theorem map_succ_eq_some_iff {found : Option Nat} (h : ¬ p 0)
    (hfound : ∀ i, found = some i ↔ IsLeast {j | p (j + 1)} i) :
    found.map (· + 1) = some i ↔ IsLeast {j | p j} i := by
  cases i with
  | zero =>
    refine iff_of_false (fun heq => ?_) fun hleast => h hleast.1
    obtain ⟨k, -, hk⟩ := Option.map_eq_some_iff.1 heq
    exact absurd hk (Nat.succ_ne_zero k)
  | succ i =>
    rw [isLeast_succ h, ← hfound i, Option.map_eq_some_iff]
    constructor
    · rintro ⟨k, hk, heq⟩
      exact Nat.succ_inj.1 heq ▸ hk
    · exact fun hi => ⟨i, hi, rfl⟩

end Least

/-- **The first mismatch** is the first index at which the two sides can be told apart. -/
theorem firstMismatch?_eq_some_iff (expected actual : List String) : ∀ i,
    firstMismatch? expected actual = some i ↔
      IsLeast {j | expected.getD j missingLine ≠ actual.getD j missingLine} i := by
  induction expected, actual using firstMismatch?.induct with
  | case1 =>
    intro i
    rw [firstMismatch?]
    exact iff_of_false nofun fun h => h.1 rfl
  | case2 expected ih =>
    intro i
    rw [firstMismatch?, if_pos rfl]
    exact map_succ_eq_some_iff (not_not_intro rfl) ih
  | case4 actual ih =>
    intro i
    rw [firstMismatch?, if_pos rfl]
    exact map_succ_eq_some_iff (not_not_intro rfl) ih
  | case6 expected a actual ih =>
    intro i
    rw [firstMismatch?, if_pos rfl]
    exact map_succ_eq_some_iff (not_not_intro rfl) ih
  | case3 e expected hne | case5 a actual hne | case7 e expected a actual hne =>
    intro i
    rw [firstMismatch?, if_neg hne, isLeast_zero hne, Option.some.injEq, eq_comm]

theorem firstMismatch?_eq_some_iff_visible :
    firstMismatch? expected actual = some i ↔ IsLeast {j | Visible expected actual j} i := by
  simp only [firstMismatch?_eq_some_iff, visible_iff]

/-! ### Reports -/

structure ExcerptRow where
  index : Nat
  marked : Bool
  expected : Option String
  actual : Option String

def ExcerptRow.text (row : ExcerptRow) : String :=
  let head := (if row.marked then ">" else " ") ++ " " ++ column ' ' (row.index + 1)
  head ++ "  expected: " ++ row.expected.getD missingLine ++ "\n" ++
    head ++ "    actual: " ++ row.actual.getD missingLine ++ "\n"

structure Excerpt (expected actual : List String) (i : Nat) (rows : List ExcerptRow) : Prop where
  ordered : (rows.map ExcerptRow.index).Pairwise (· < ·)
  around : ∀ j, j ∈ rows.map ExcerptRow.index ↔
    i - 2 ≤ j ∧ j < min (i + 3) (max expected.length actual.length)
  shows : ∀ row ∈ rows, row.expected = expected[row.index]? ∧ row.actual = actual[row.index]?
  marks : ∀ row ∈ rows, row.marked = true ↔ row.index = i

def figures (expected actual : List String) : String :=
  s!"expected {expected.length} lines, actual {actual.length} lines\n"

/-- The report shows the first mismatch at an index, with its excerpt. -/
def ReportsAt (report : String) (expected actual : List String) (i : Nat) : Prop :=
  ∃ (rows : List ExcerptRow) (first last : ExcerptRow), Excerpt expected actual i rows ∧
    rows.head? = some first ∧ rows.getLast? = some last ∧
    report = s!"first mismatch at line {i + 1} (showing {first.index + 1}..={last.index + 1}):\n" ++
      String.join (rows.map ExcerptRow.text) ++ figures expected actual

/-- The report names a line, counted from 1. -/
def NamesLine (report : String) (n : Nat) : Prop :=
  s!"first mismatch at line {n} ".toList <+: report.toList

def excerptRow (expected actual : List String) (i j : Nat) : ExcerptRow :=
  ⟨j, j = i, expected[j]?, actual[j]?⟩

theorem diffRow_eq : diffRow expected actual i j = (excerptRow expected actual i j).text := by
  simp only [diffRow, excerptRow, ExcerptRow.text, List.getD_eq_getElem?_getD, decide_eq_true_eq]

def excerptRows (expected actual : List String) (i : Nat) : List ExcerptRow :=
  (List.range' (i - 2) (min (i + 3) (max expected.length actual.length) - (i - 2))).map
    (excerptRow expected actual i)

theorem map_index_excerptRows (expected actual : List String) (i : Nat) :
    (excerptRows expected actual i).map ExcerptRow.index =
      List.range' (i - 2) (min (i + 3) (max expected.length actual.length) - (i - 2)) := by
  rw [excerptRows, List.map_map]
  exact List.map_id _

theorem excerpt_excerptRows (expected actual : List String) (i : Nat) :
    Excerpt expected actual i (excerptRows expected actual i) where
  ordered := by
    rw [map_index_excerptRows]
    exact List.pairwise_lt_range' 1
  around := by
    intro j
    rw [map_index_excerptRows, List.mem_range'_1]
    omega
  shows := by
    intro row hrow
    obtain ⟨j, -, rfl⟩ := List.mem_map.1 hrow
    exact ⟨rfl, rfl⟩
  marks := by
    intro row hrow
    obtain ⟨j, -, rfl⟩ := List.mem_map.1 hrow
    exact decide_eq_true_iff

/-- **A report on a mismatch** shows the lines around it. -/
theorem reportsAt_of_firstMismatch? (h : firstMismatch? expected actual = some i) :
    ReportsAt (diffLines expected actual) expected actual i := by
  have hlt : i < max expected.length actual.length :=
    (firstMismatch?_eq_some_iff_visible.1 h).1.1.lt
  refine ⟨excerptRows expected actual i, excerptRow expected actual i (i - 2),
    excerptRow expected actual i (min (i + 3) (max expected.length actual.length) - 1),
    excerpt_excerptRows expected actual i, ?_, ?_, ?_⟩
  · rw [excerptRows, List.head?_map, List.head?_range', if_neg (by omega)]
    rfl
  · rw [excerptRows, List.getLast?_map, List.getLast?_range', if_neg (by omega)]
    exact congrArg (fun j => some (excerptRow expected actual i j)) (by omega)
  · have hlast : min (i + 3) (max expected.length actual.length) - 1 + 1 =
        min (i + 3) (max expected.length actual.length) := by omega
    have hrows : (excerptRows expected actual i).map ExcerptRow.text =
        (List.range' (i - 2) (min (i + 3) (max expected.length actual.length) - (i - 2))).map
          (diffRow expected actual i) := by
      rw [excerptRows, List.map_map]
      exact List.map_congr_left fun j _ => diffRow_eq.symm
    rw [diffLines, h, hrows]
    simp only [excerptRow, hlast]
    rfl

theorem diffLines_of_none (h : firstMismatch? expected actual = none) :
    diffLines expected actual = figures expected actual := by
  rw [diffLines, h]
  exact String.empty_append

/-! ### The line that a report names -/

/-- A number that ends before a blank is known from its digits. -/
theorem toDigits_prefix_iff {m n : Nat} {rest : List Char} :
    Nat.toDigits 10 n ++ [' '] <+: Nat.toDigits 10 m ++ ' ' :: rest ↔ n = m := by
  have hdigits : ∀ k : Nat, ∀ c ∈ Nat.toDigits 10 k, (c != ' ') = true := by
    intro k c hc
    have hdigit := Nat.isDigit_of_mem_toDigits (by decide) (by decide) hc
    refine bne_iff_ne.2 ?_
    rintro rfl
    cases hdigit
  have htake : ∀ (k : Nat) (more : List Char),
      (Nat.toDigits 10 k ++ ' ' :: more).takeWhile (· != ' ') = Nat.toDigits 10 k := by
    intro k more
    rw [List.takeWhile_append_of_pos (hdigits k), List.takeWhile_cons_of_neg (by simp),
      List.append_nil]
  constructor
  · rintro ⟨more, h⟩
    rw [List.append_assoc, List.singleton_append] at h
    have heq := congrArg (List.takeWhile (· != ' ')) h
    rw [htake, htake] at heq
    rw [← Nat.ofDigitChars_ten_toDigits (n := n), heq, Nat.ofDigitChars_ten_toDigits]
  · rintro rfl
    exact ⟨rest, by rw [List.append_assoc, List.singleton_append]⟩

theorem namesLine_iff_starts {report : String} : NamesLine report n ↔
    "first mismatch at line ".toList ++ (Nat.toDigits 10 n ++ [' ']) <+: report.toList := by
  have hline : s!"first mismatch at line {n} ".toList =
      "first mismatch at line ".toList ++ (Nat.toDigits 10 n ++ [' ']) := by
    rw [String.toList_append, String.toList_append, Nat.toString_eq_ofList_toDigits,
      String.toList_ofList, List.append_assoc]
    rfl
  rw [NamesLine, hline]

/-- A report on a mismatch names its line and no other one. -/
theorem ReportsAt.namesLine_iff {report : String} (h : ReportsAt report expected actual i) :
    NamesLine report n ↔ n = i + 1 := by
  obtain ⟨rows, first, last, -, -, -, rfl⟩ := h
  obtain ⟨rest, hrest⟩ : ∃ rest : List Char,
      (s!"first mismatch at line {i + 1} (showing {first.index + 1}..={last.index + 1}):\n" ++
        String.join (rows.map ExcerptRow.text) ++ figures expected actual).toList =
        "first mismatch at line ".toList ++ (Nat.toDigits 10 (i + 1) ++ ' ' :: rest) := by
    refine ⟨?_, ?_⟩
    rotate_left
    · simp only [String.toList_append, List.append_assoc]
      rw [Nat.toString_eq_ofList_toDigits, String.toList_ofList]
      rfl
  rw [namesLine_iff_starts, hrest, List.prefix_append_right_inj, toDigits_prefix_iff]

theorem not_namesLine_figures : ¬ NamesLine (figures expected actual) n := by
  rw [namesLine_iff_starts]
  rintro ⟨more, h⟩
  have hhead := congrArg List.head? h
  simp only [figures, String.toList_append] at hhead
  cases hhead

/-- **A report names the first line at which a difference can be seen**, and no other one.  It shows
the lines around it.  Different lists differ at a first index, and the line there is the one that is
named, unless it is disguised; lists without any difference have a report that names no line. -/
theorem diffLines_names (expected actual : List String) :
    (∀ n, NamesLine (diffLines expected actual) n ↔
      ∃ i, n = i + 1 ∧ IsLeast {j | Visible expected actual j} i) ∧
    (∀ i, IsLeast {j | Visible expected actual j} i →
      ReportsAt (diffLines expected actual) expected actual i) ∧
    (expected ≠ actual ↔ ∃ i, IsLeast {j | DifferAt expected actual j} i) ∧
    ∀ i, IsLeast {j | DifferAt expected actual j} i →
      (NamesLine (diffLines expected actual) (i + 1) ↔ ¬ Disguised expected actual i) := by
  have hnames : ∀ n, NamesLine (diffLines expected actual) n ↔
      ∃ i, n = i + 1 ∧ IsLeast {j | Visible expected actual j} i := by
    intro n
    cases hfirst : firstMismatch? expected actual with
    | none =>
      rw [diffLines_of_none hfirst]
      refine iff_of_false not_namesLine_figures ?_
      rintro ⟨i, -, hi⟩
      cases hfirst.symm.trans (firstMismatch?_eq_some_iff_visible.2 hi)
    | some i =>
      rw [(reportsAt_of_firstMismatch? hfirst).namesLine_iff]
      constructor
      · exact fun hn => ⟨i, hn, firstMismatch?_eq_some_iff_visible.1 hfirst⟩
      · rintro ⟨j, rfl, hj⟩
        rw [hj.unique (firstMismatch?_eq_some_iff_visible.1 hfirst)]
  refine ⟨hnames, fun i hi =>
    reportsAt_of_firstMismatch? (firstMismatch?_eq_some_iff_visible.2 hi),
    ne_iff_exists_differAt, fun i hi => ?_⟩
  rw [hnames]
  constructor
  · rintro ⟨j, hij, hj⟩
    exact Nat.succ_inj.1 hij ▸ hj.1.2
  · exact fun hseen => ⟨i, rfl, ⟨hi.1, hseen⟩, fun j hj => hi.2 hj.1⟩

/-- A line is missing, and it shows. -/
theorem diffLines_names_missing :
    IsLeast {j | Visible ["a", "b"] ["a"] j} 1 ∧ NamesLine (diffLines ["a", "b"] ["a"]) 2 ∧
      ReportsAt (diffLines ["a", "b"] ["a"]) ["a", "b"] ["a"] 1 := by
  have hleast : IsLeast {j | Visible ["a", "b"] ["a"] j} 1 :=
    firstMismatch?_eq_some_iff_visible.1 (by simp [firstMismatch?, missingLine])
  obtain ⟨hnames, hreports, -⟩ := diffLines_names ["a", "b"] ["a"]
  exact ⟨hleast, (hnames 2).2 ⟨1, rfl, hleast⟩, hreports 1 hleast⟩

/-- **A difference that is not seen**: the one side has a line that reads like the mark, and the
other side has no line. -/
theorem diffLines_disguised :
    [missingLine] ≠ [] ∧ ∀ n, ¬ NamesLine (diffLines [missingLine] []) n := by
  refine ⟨nofun, fun n => ?_⟩
  rw [diffLines_of_none (by simp [firstMismatch?])]
  exact not_namesLine_figures

end HtmlTape.Text
