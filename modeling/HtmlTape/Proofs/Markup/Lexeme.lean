import HtmlTape.Name.Table
import HtmlTape.Proofs.Markup.Written

/-!
# Lexemes

Markup as a plain reader tells it apart, without a table of elements: a start tag is `<`, a name,
attributes with a blank before each, and `>`; an end tag is `</`, a name and `>`; all else up to the
next `<` is a run of text.  A name goes up to the next delimiter.  The value of an attribute stands
between double quotes and goes up to the next of them.

What is printed for lexemes is read back as the same lexemes, except that runs of text that touch
become one (`lexemes?_print`).
-/

namespace HtmlTape.Markup

/-- A piece of markup.  The value of an attribute is what stands between its quotes, if it has
one. -/
inductive Lexeme where
  | startTag (name : String) (attributes : List (String × Option String))
  | endTag (name : String)
  | text (run : String)
deriving DecidableEq

/-! ### Reading -/

/-- A character at which a name ends. -/
def isDelimiter (c : Char) : Bool :=
  c == ' ' || c == '>' || c == '/' || c == '=' || c == '"' || c == '<'

/-- The name at the front, and what stands after it. -/
def name? (s : List Char) : Option (String × List Char) :=
  match s.takeWhile (!isDelimiter ·) with
  | [] => none
  | c :: name => some (String.ofList (c :: name), s.dropWhile (!isDelimiter ·))

def value? : List Char → Option (Option String × List Char)
  | '=' :: '"' :: quoted =>
    match quoted.dropWhile (· ≠ '"') with
    | [] => none
    | _ :: after => some (some (String.ofList (quoted.takeWhile (· ≠ '"'))), after)
  | s => some (none, s)

theorem length_dropWhile_le (p : Char → Bool) (s : List Char) :
    (s.dropWhile p).length ≤ s.length :=
  (List.dropWhile_sublist p).length_le

theorem length_of_name? {s after : List Char} {name : String} (h : name? s = some (name, after)) :
    after.length ≤ s.length := by
  rw [name?] at h
  split at h
  · cases h
  · cases h
    exact length_dropWhile_le _ s

theorem length_of_value? {s after : List Char} {value : Option String}
    (h : value? s = some (value, after)) : after.length ≤ s.length := by
  rw [value?.eq_def] at h
  split at h
  · rename_i quoted
    split at h
    · cases h
    · rename_i hdrop
      cases h
      have hle := length_dropWhile_le (· ≠ '"') quoted
      rw [hdrop] at hle
      simp only [List.length_cons] at hle ⊢
      omega
  · cases h
    exact Nat.le_refl _

def attributes? (s : List Char) : Option (List (String × Option String) × List Char) :=
  match s with
  | '>' :: after => some ([], after)
  | ' ' :: rest =>
    match hname : name? rest with
    | none => none
    | some (name, afterName) =>
      match hvalue : value? afterName with
      | none => none
      | some (value, after) =>
        have := length_of_name? hname
        have := length_of_value? hvalue
        (attributes? after).map fun (attributes, s) => ((name, value) :: attributes, s)
  | _ => none
termination_by s.length
decreasing_by simp only [List.length_cons]; omega

def lexeme? : List Char → Option (Lexeme × List Char)
  | [] => none
  | '<' :: '/' :: rest =>
    match name? rest with
    | some (name, '>' :: after) => some (.endTag name, after)
    | _ => none
  | '<' :: rest => do
    let (name, rest) ← name? rest
    let (attributes, after) ← attributes? rest
    return (.startTag name attributes, after)
  | c :: rest =>
    some (.text (String.ofList (c :: rest.takeWhile (· ≠ '<'))), rest.dropWhile (· ≠ '<'))

theorem attributes?_blank {rest afterName after : List Char} {name : String}
    {value : Option String} (hname : name? rest = some (name, afterName))
    (hvalue : value? afterName = some (value, after)) :
    attributes? (' ' :: rest) =
      (attributes? after).map fun (attributes, s) => ((name, value) :: attributes, s) := by
  rw [attributes?]
  split
  · rename_i heq
    rw [hname] at heq
    cases heq
  · rename_i heq
    rw [hname] at heq
    cases heq
    split
    · rename_i heq
      rw [hvalue] at heq
      cases heq
    · rename_i heq
      rw [hvalue] at heq
      cases heq
      rfl

theorem length_of_attributes? (s : List Char) : ∀ {attributes : List (String × Option String)}
    {after : List Char}, attributes? s = some (attributes, after) → after.length < s.length := by
  induction s using attributes?.induct with
  | case1 after =>
    intro _ _ h
    rw [attributes?] at h
    cases h
    exact Nat.lt_succ_self _
  | case2 rest hname =>
    intro _ _ h
    rw [attributes?] at h
    split at h
    · cases h
    · rename_i heq
      rw [hname] at heq
      cases heq
  | case3 rest name afterName hname hvalue =>
    intro _ _ h
    rw [attributes?] at h
    split at h
    · cases h
    · rename_i heq
      rw [hname] at heq
      cases heq
      split at h
      · cases h
      · rename_i heq
        rw [hvalue] at heq
        cases heq
  | case4 rest name afterName hname value after hvalue hle hle' ih =>
    intro _ _ h
    rw [attributes?_blank hname hvalue] at h
    obtain ⟨⟨_, _⟩, hrest, h⟩ := Option.map_eq_some_iff.1 h
    cases h
    have := ih hrest
    rw [List.length_cons]
    omega
  | case5 s hclose hblank =>
    intro _ _ h
    rw [attributes?.eq_def] at h
    split at h
    · exact absurd rfl (hclose _)
    · exact absurd rfl (hblank _)
    · cases h

theorem length_of_lexeme? {s after : List Char} {l : Lexeme} (h : lexeme? s = some (l, after)) :
    after.length < s.length := by
  rw [lexeme?.eq_def] at h
  split at h
  · cases h
  · split at h
    · rename_i hname
      cases h
      have := length_of_name? hname
      simp only [List.length_cons] at this ⊢
      omega
    · cases h
  · obtain ⟨⟨name, afterName⟩, hname, h⟩ := Option.bind_eq_some_iff.1 h
    obtain ⟨⟨attributes, _⟩, hattrs, h⟩ := Option.bind_eq_some_iff.1 h
    cases h
    have hname := length_of_name? hname
    have hattrs := length_of_attributes? _ hattrs
    rw [List.length_cons]
    omega
  · cases h
    exact Nat.lt_succ_of_le (length_dropWhile_le _ _)

def lexemes? (s : List Char) : Option (List Lexeme) :=
  if s.isEmpty then some []
  else
    match h : lexeme? s with
    | none => none
    | some (l, after) =>
      have := length_of_lexeme? h
      (lexemes? after).map (l :: ·)
termination_by s.length

theorem lexemes?_cons {s after : List Char} {l : Lexeme} (h : lexeme? s = some (l, after)) :
    lexemes? s = (lexemes? after).map (l :: ·) := by
  have hs : ¬ s.isEmpty := by
    rw [List.isEmpty_iff]
    rintro rfl
    cases h
  rw [lexemes?, if_neg hs]
  split
  · rename_i heq
    rw [h] at heq
    cases heq
  · rename_i heq
    rw [h] at heq
    cases heq
    rfl

/-! ### Printing -/

def printAttribute (attr : String × Option String) : List Char :=
  ' ' :: attr.1.toList ++
    match attr.2 with
    | some value => '=' :: '"' :: value.toList ++ ['"']
    | none => []

namespace Lexeme

def print : Lexeme → List Char
  | startTag name attributes => '<' :: name.toList ++ attributes.flatMap printAttribute ++ ['>']
  | endTag name => '<' :: '/' :: name.toList ++ ['>']
  | text run => run.toList

/-- The lexeme can be read back: its names are legal, no value has a quote, and a text is not empty
and has no `<`. -/
def Legal : Lexeme → Prop
  | startTag name attributes => isLegalName name ∧
    ∀ attr ∈ attributes, isLegalName attr.1 ∧
      ∀ value ∈ attr.2, '"' ∉ value.toList
  | endTag name => isLegalName name
  | text run => run ≠ "" ∧ '<' ∉ run.toList

def prepend (run : String) : List Lexeme → List Lexeme
  | text run' :: rest => text (run ++ run') :: rest
  | rest => text run :: rest

def joinTexts : List Lexeme → List Lexeme
  | [] => []
  | text run :: rest => prepend run (joinTexts rest)
  | l :: rest => l :: joinTexts rest

end Lexeme

/-! ### Reading back -/

theorem not_isDelimiter {c : Char} (h : isNameChar c) : !isDelimiter c := by
  rw [isNameChar] at h
  simp only [Bool.and_eq_true, bne_iff_ne, decide_eq_true_eq] at h
  obtain ⟨⟨⟨⟨⟨⟨⟨hblank, _⟩, hquote⟩, _⟩, hlt⟩, hgt⟩, hslash⟩, heq⟩ := h
  have hne : c ≠ ' ' := by
    rintro rfl
    exact absurd hblank (by decide)
  simp only [isDelimiter, beq_false_of_ne, hne, hquote, hlt, hgt, hslash, heq, ne_eq,
    not_false_eq_true, Bool.or_false, Bool.not_false]

theorem name?_append {name : String} (h : isLegalName name) {c : Char} (hc : isDelimiter c)
    (s : List Char) : name? (name.toList ++ c :: s) = some (name, c :: s) := by
  rw [isLegalName, Bool.and_eq_true, List.all_eq_true] at h
  obtain ⟨hne, hchars⟩ := h
  have hchars : ∀ c ∈ name.toList, !isDelimiter c := fun c hc => not_isDelimiter (hchars c hc)
  rw [name?, List.takeWhile_append_of_pos hchars, List.dropWhile_append_of_pos hchars,
    List.takeWhile_cons_of_neg (by simp [hc]), List.dropWhile_cons_of_neg (by simp [hc]),
    List.append_nil]
  cases hname : name.toList with
  | nil =>
    have hempty : name = "" := String.toList_eq_nil_iff.1 hname
    subst hempty
    cases hne
  | cons c name' => simp only [← hname, String.ofList_toList]

theorem value?_quoted {value : String} (h : '"' ∉ value.toList) (s : List Char) :
    value? ('=' :: '"' :: value.toList ++ '"' :: s) = some (some value, s) := by
  have hchars : ∀ c ∈ value.toList, decide (c ≠ '"') = true := by
    intro c hc
    refine decide_eq_true ?_
    rintro rfl
    exact h hc
  show (match (value.toList ++ '"' :: s).dropWhile (· ≠ '"') with
    | [] => none
    | _ :: after =>
      some (some (String.ofList ((value.toList ++ '"' :: s).takeWhile (· ≠ '"'))), after)) = _
  rw [List.takeWhile_append_of_pos hchars, List.dropWhile_append_of_pos hchars,
    List.takeWhile_cons_of_neg (by simp), List.dropWhile_cons_of_neg (by simp), List.append_nil,
    String.ofList_toList]

theorem value?_of_ne {c : Char} (h : c ≠ '=') (s : List Char) :
    value? (c :: s) = some (none, c :: s) := by
  rw [value?.eq_def]
  split
  · rename_i heq
    cases heq
    exact absurd rfl h
  · rfl

/-- **Printed attributes are read back**, up to the end of the start tag. -/
theorem attributes?_print {attributes : List (String × Option String)}
    (h : ∀ attr ∈ attributes, isLegalName attr.1 ∧
      ∀ value ∈ attr.2, '"' ∉ value.toList) (s : List Char) :
    attributes? (attributes.flatMap printAttribute ++ '>' :: s) = some (attributes, s) := by
  induction attributes with
  | nil => rw [List.flatMap_nil, List.nil_append, attributes?]
  | cons attr attributes ih =>
    have hrest := ih fun attr hmem => h attr (List.mem_cons_of_mem _ hmem)
    -- What follows an attribute: the blank before the next one, or the end of the tag.
    obtain ⟨c, after, hafter, hc, hne⟩ : ∃ c after,
        attributes.flatMap printAttribute ++ '>' :: s = c :: after ∧ isDelimiter c ∧ c ≠ '=' := by
      cases attributes with
      | nil => exact ⟨'>', s, rfl, by decide, by decide⟩
      | cons next attributes => exact ⟨' ', _, rfl, by decide, by decide⟩
    obtain ⟨name, value⟩ := attr
    obtain ⟨hname, hvalue⟩ := h _ List.mem_cons_self
    rw [List.flatMap_cons, List.append_assoc, hafter]
    rw [hafter] at hrest
    cases value with
    | none =>
      rw [printAttribute, List.append_nil, List.cons_append,
        attributes?_blank (name?_append hname hc after) (value?_of_ne hne after), hrest]
      rfl
    | some value =>
      have hquoted := value?_quoted (hvalue value rfl) (c :: after)
      rw [printAttribute]
      simp only [List.cons_append, List.append_assoc, List.nil_append] at hquoted ⊢
      rw [attributes?_blank (name?_append hname (by decide) _) hquoted, hrest]
      rfl

theorem lexeme?_startTag {name : String} {attributes : List (String × Option String)}
    (h : (Lexeme.startTag name attributes).Legal) (s : List Char) :
    lexeme? ((Lexeme.startTag name attributes).print ++ s) =
      some (.startTag name attributes, s) := by
  obtain ⟨hname, hattrs⟩ := h
  obtain ⟨c, after, hafter, hc⟩ : ∃ c after,
      attributes.flatMap printAttribute ++ '>' :: s = c :: after ∧ isDelimiter c := by
    cases attributes with
    | nil => exact ⟨'>', s, rfl, by decide⟩
    | cons next attributes => exact ⟨' ', _, rfl, by decide⟩
  have hread := attributes?_print hattrs s
  rw [hafter] at hread
  have hprint : (Lexeme.startTag name attributes).print ++ s =
      '<' :: (name.toList ++ c :: after) := by
    rw [← hafter, Lexeme.print]
    simp only [List.cons_append, List.append_assoc, List.nil_append]
  have hname := name?_append hname hc after
  rw [hprint, lexeme?.eq_def]
  split
  · rename_i heq
    cases heq
  · rename_i heq
    -- A name does not begin with the slash of an end tag.
    rw [(List.cons.inj heq).2] at hname
    cases hname
  · rename_i heq
    rw [← (List.cons.inj heq).2, hname]
    show (attributes? (c :: after)).bind _ = _
    rw [hread]
    rfl
  · rename_i hne heq
    exact absurd (List.cons.inj heq).1.symm hne

theorem lexeme?_endTag {name : String} (h : (Lexeme.endTag name).Legal) (s : List Char) :
    lexeme? ((Lexeme.endTag name).print ++ s) = some (.endTag name, s) := by
  have hname := name?_append h (by decide : isDelimiter '>') s
  have hprint : (Lexeme.endTag name).print ++ s = '<' :: '/' :: (name.toList ++ '>' :: s) := by
    rw [Lexeme.print]
    simp only [List.cons_append, List.append_assoc, List.nil_append]
  rw [hprint, lexeme?, hname]
  rfl

theorem lexeme?_of_ne {c : Char} (h : c ≠ '<') (s : List Char) : lexeme? (c :: s) =
    some (.text (String.ofList (c :: s.takeWhile (· ≠ '<'))), s.dropWhile (· ≠ '<')) := by
  rw [lexeme?.eq_def]
  split
  · rename_i heq
    cases heq
  · rename_i heq
    exact absurd (List.cons.inj heq).1 h
  · rename_i heq
    exact absurd (List.cons.inj heq).1 h
  · rename_i heq
    cases heq
    rfl

/-! ### Runs of text -/

theorem prepend_of_lexemes? {s : List Char} {ls : List Lexeme} (h : lexemes? ('<' :: s) = some ls)
    (run : String) : Lexeme.prepend run ls = .text run :: ls := by
  rw [lexemes?, if_neg (by simp)] at h
  split at h
  · cases h
  · rename_i l after hl
    obtain ⟨rest, _, rfl⟩ := Option.map_eq_some_iff.1 h
    rw [lexeme?.eq_def] at hl
    split at hl
    · cases hl
    · split at hl
      · cases hl
        rfl
      · cases hl
    · obtain ⟨⟨_, _⟩, _, hl⟩ := Option.bind_eq_some_iff.1 hl
      obtain ⟨⟨_, _⟩, _, hl⟩ := Option.bind_eq_some_iff.1 hl
      cases hl
      rfl
    · rename_i hne heq
      exact absurd (List.cons.inj heq).1.symm hne

/-- A text is read together with the text behind it. -/
theorem lexemes?_text {run : String} (h : (Lexeme.text run).Legal) (s : List Char) :
    lexemes? (run.toList ++ s) = (lexemes? s).map (Lexeme.prepend run) := by
  obtain ⟨hne, hlt⟩ := h
  have hchars : ∀ c ∈ run.toList, decide (c ≠ '<') = true := by
    intro c hc
    refine decide_eq_true ?_
    rintro rfl
    exact hlt hc
  have hrun : lexemes? (run.toList ++ s) = (lexemes? (s.dropWhile (· ≠ '<'))).map
      (.text (run ++ String.ofList (s.takeWhile (· ≠ '<'))) :: ·) := by
    cases hcs : run.toList with
    | nil => exact absurd (String.toList_eq_nil_iff.1 hcs) hne
    | cons c cs =>
      rw [hcs] at hchars
      have hrest : ∀ c ∈ cs, decide (c ≠ '<') = true :=
        fun c hc => hchars c (List.mem_cons_of_mem _ hc)
      rw [List.cons_append, lexemes?_cons (lexeme?_of_ne
        (of_decide_eq_true (hchars c List.mem_cons_self)) _),
        List.takeWhile_append_of_pos hrest, List.dropWhile_append_of_pos hrest,
        ← List.cons_append, ← hcs, String.ofList_append, String.ofList_toList]
  rw [hrun]
  cases s with
  | nil =>
    rw [List.dropWhile_nil, lexemes?]
    show some [Lexeme.text (run ++ "")] = some [Lexeme.text run]
    rw [String.append_empty]
  | cons c s =>
    by_cases hc : c = '<'
    · subst hc
      rw [List.takeWhile_cons_of_neg (by simp), List.dropWhile_cons_of_neg (by simp)]
      rw [String.ofList_nil, String.append_empty]
      cases hls : lexemes? ('<' :: s) with
      | none => rfl
      | some ls =>
        rw [Option.map_some, Option.map_some, prepend_of_lexemes? hls]
    · rw [lexemes?_cons (lexeme?_of_ne hc s), List.takeWhile_cons_of_pos (by simp [hc]),
        List.dropWhile_cons_of_pos (by simp [hc]), Option.map_map]
      rfl

/-- **Printed lexemes are read back**, with texts that touch as one. -/
theorem lexemes?_print {ls : List Lexeme} (h : ∀ l ∈ ls, l.Legal) :
    lexemes? (ls.flatMap Lexeme.print) = some (Lexeme.joinTexts ls) := by
  induction ls with
  | nil => rw [List.flatMap_nil, lexemes?]; rfl
  | cons l ls ih =>
    have hl := h l List.mem_cons_self
    have hrest := ih fun l hmem => h l (List.mem_cons_of_mem _ hmem)
    rw [List.flatMap_cons]
    cases l with
    | startTag name attributes =>
      rw [lexemes?_cons (lexeme?_startTag hl _), hrest]
      rfl
    | endTag name =>
      rw [lexemes?_cons (lexeme?_endTag hl _), hrest]
      rfl
    | text run =>
      rw [Lexeme.print, lexemes?_text hl, hrest]
      rfl

example : lexemes? "<a title=\"&#34; &amp; c\" x-new>1 &lt; 2<br></a>".toList = some
    [.startTag "a" [("title", some "&#34; &amp; c"), ("x-new", none)], .text "1 &lt; 2",
      .startTag "br" [], .endTag "a"] := by
  decide +kernel

/-! ### Escaped texts -/

theorem escapeText_append (a b : String) :
    (escapeText (a ++ b)).text = (escapeText a).text ++ (escapeText b).text := by
  apply String.toList_inj.1
  rw [String.toList_append, toList_escapeText, toList_escapeText, toList_escapeText,
    String.toList_append, textFates, List.map_append, written, List.flatMap_append]
  rfl

theorem escapeText_ne_empty {s : String} (h : s ≠ "") : (escapeText s).text ≠ "" := by
  intro hempty
  apply h
  apply String.toList_inj.1
  have hread := readText_written s.toList
  rw [← toList_escapeText, hempty] at hread
  exact hread.symm

namespace Lexeme

def escape : Lexeme → Lexeme
  | text run => text (escapeText run).text
  | l => l

/-- The lexeme with the text that is meant by what is written. -/
def read : Lexeme → Lexeme
  | text run => text (String.ofList (readText run.toList))
  | l => l

def tag? : Lexeme → Option Lexeme
  | startTag name attributes =>
    some (startTag name (attributes.map fun attr => (attr.1, attr.2.map fun _ => "")))
  | endTag name => some (endTag name)
  | text _ => none

theorem read_escape (l : Lexeme) : l.escape.read = l := by
  cases l with
  | text run => rw [escape, read, toList_escapeText, readText_written, String.ofList_toList]
  | _ => rfl

theorem tag?_escape (l : Lexeme) : l.escape.tag? = l.tag? := by
  cases l <;> rfl

theorem joinTexts_map_escape (ls : List Lexeme) :
    joinTexts (ls.map escape) = (joinTexts ls).map escape := by
  induction ls with
  | nil => rfl
  | cons l ls ih =>
    cases l with
    | text run =>
      rw [List.map_cons, joinTexts, escape, joinTexts, ih]
      cases joinTexts ls with
      | nil => rfl
      | cons l ls =>
        cases l with
        | text run' =>
          rw [List.map_cons, escape, prepend, prepend, List.map_cons, escape, escapeText_append]
        | _ => rfl
    | startTag name attributes => exact congrArg (startTag name attributes :: ·) ih
    | endTag name => exact congrArg (endTag name :: ·) ih

theorem tags_joinTexts (ls : List Lexeme) :
    (joinTexts ls).filterMap tag? = ls.filterMap tag? := by
  induction ls with
  | nil => rfl
  | cons l ls ih =>
    cases l with
    | text run =>
      rw [joinTexts, List.filterMap_cons_none rfl, ← ih]
      cases joinTexts ls with
      | nil => rfl
      | cons l ls => cases l <;> rfl
    | startTag name attributes =>
      exact congrArg
        (startTag name (attributes.map fun attr => (attr.1, attr.2.map fun _ => "")) :: ·) ih
    | endTag name => exact congrArg (endTag name :: ·) ih

end Lexeme

end HtmlTape.Markup
