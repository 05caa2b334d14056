import HtmlTape.Outline.Node
import HtmlTape.Text.Blank
import HtmlTape.Text.Escaped
import HtmlTape.Text.Quoted

/-!
# Lines of an outline

One line of an outline describes one node: `!doctype`, a quoted text, `raw` and a quoted text, or
a tag with attributes. Inside of quotes, backslash escapes stand for the characters that cannot
stand there themselves.
-/

namespace HtmlTape.Outline

inductive LineError where
  /-- Neither a doctype, a text, raw markup nor a tag. -/
  | unrecognized (line : List Char)
  | missingName
  | emptyAttribute (line : List Char)
  /-- A quoted text should be here. -/
  | unquoted (rest : List Char)
  | malformedEscape (rest : List Char)
  | unterminated (rest : List Char)
  /-- Something follows the node. -/
  | trailing (rest : List Char)
deriving DecidableEq

def LineError.message : LineError → String
  | unrecognized line => "unrecognized line " ++ Text.quoted line
  | missingName => "missing element name"
  | emptyAttribute line => "empty attribute name in " ++ Text.quoted line
  | unquoted rest => "expected a quoted string at " ++ Text.quoted rest
  | malformedEscape rest => "malformed escape in " ++ Text.quoted rest
  | unterminated rest => "unterminated string " ++ Text.quoted rest
  | trailing rest => "trailing input " ++ Text.quoted rest

/-- The characters before the first quote that no backslash stands before, and those after it.
The flag says whether a backslash stands before the text. -/
def upToQuote? (escaped : Bool) : List Char → Option (List Char × List Char)
  | [] => none
  | c :: rest =>
    if !escaped && c == '"' then some ([], rest)
    else
      (upToQuote? (!escaped && c == '\\') rest).map fun (body, after) => (c :: body, after)

/-- The text in quotes at the start of `s`, with its escapes read, and what follows it. -/
def quotedText (s : List Char) : Except LineError (List Char × List Char) :=
  match s with
  | '"' :: body =>
    match upToQuote? false body with
    | none => .error (.unterminated s)
    | some (inside, after) =>
      match Text.unescape? inside with
      | none => .error (.malformedEscape s)
      | some text => .ok (text, after)
  | _ => .error (.unquoted s)

/-- Nothing but blanks may follow. -/
def expectEnd (rest : List Char) : Except LineError Unit :=
  if Text.allBlank rest then .ok () else .error (.trailing rest)

/-- A text in quotes that ends the line. -/
def closingText (s : List Char) : Except LineError String := do
  let (text, rest) ← quotedText s
  expectEnd rest
  return String.ofList text

theorem length_upToQuote? {escaped : Bool} {s body rest : List Char}
    (h : upToQuote? escaped s = some (body, rest)) : rest.length < s.length := by
  induction s generalizing escaped body with
  | nil => simp [upToQuote?] at h
  | cons c s ih =>
    rw [upToQuote?] at h
    split at h
    · simp only [Option.some.injEq, Prod.mk.injEq] at h
      simp [← h.2]
    · obtain ⟨⟨b, r⟩, hb, he⟩ := Option.map_eq_some_iff.1 h
      simp only [Prod.mk.injEq] at he
      have := ih (he.2 ▸ hb)
      simp only [List.length_cons]
      omega

theorem length_quotedText {s text rest : List Char} (h : quotedText s = .ok (text, rest)) :
    rest.length < s.length := by
  unfold quotedText at h
  split at h
  · split at h
    · simp at h
    · next hu =>
      split at h
      · simp at h
      · simp only [Except.ok.injEq, Prod.mk.injEq] at h
        have := length_upToQuote? hu
        rw [← h.2]
        simp only [List.length_cons]
        omega
  · simp at h

/-- A character that ends the name of an attribute. -/
def endsAttributeName (c : Char) : Bool :=
  c == '=' || c == ' '

/-- One attribute at the start of `s`, and what follows it. -/
def attributeAt (line s : List Char) :
    Except LineError ((String × Option String) × List Char) :=
  let name := s.takeWhile (!endsAttributeName ·)
  if name.isEmpty then .error (.emptyAttribute line)
  else
    match s.dropWhile (!endsAttributeName ·) with
    | '=' :: rest => do
      let (value, rest) ← quotedText rest
      return ((String.ofList name, some (String.ofList value)), rest)
    | rest => .ok ((String.ofList name, none), rest)

theorem length_trimStart_le (s : List Char) : (Text.trimStart s).length ≤ s.length :=
  (List.dropWhile_sublist _).length_le

theorem length_attributeAt {line s rest : List Char} {a : String × Option String}
    (h : attributeAt line s = .ok (a, rest)) : rest.length < s.length := by
  have hs : (s.takeWhile (!endsAttributeName ·)).length +
      (s.dropWhile (!endsAttributeName ·)).length = s.length := by
    rw [← List.length_append, List.takeWhile_append_dropWhile]
  simp only [attributeAt] at h
  split at h
  · simp at h
  · next hne =>
    have hpos : 0 < (s.takeWhile (!endsAttributeName ·)).length := by
      cases hn : s.takeWhile (!endsAttributeName ·) with
      | nil => simp [hn] at hne
      | cons => simp
    split at h
    · next after hd =>
      rw [hd, List.length_cons] at hs
      cases hq : quotedText after with
      | error e => simp [hq, bind, Except.bind] at h
      | ok p =>
        obtain ⟨value, after'⟩ := p
        simp only [hq, bind, Except.bind, pure, Except.pure, Except.ok.injEq, Prod.mk.injEq] at h
        have := length_quotedText hq
        rw [← h.2]
        omega
    · simp only [Except.ok.injEq, Prod.mk.injEq] at h
      rw [← h.2]
      omega

/-- The attributes of a tag whose rest is `s`; there may be blanks before each. -/
def attributesOf (line s : List Char) : Except LineError (List (String × Option String)) :=
  let s' := Text.trimStart s
  if s'.isEmpty then .ok []
  else
    match h : attributeAt line s' with
    | .error e => .error e
    | .ok (a, rest) =>
      have : rest.length < s.length :=
        Nat.lt_of_lt_of_le (length_attributeAt h) (length_trimStart_le s)
      (attributesOf line rest).map (a :: ·)
termination_by s.length

/-- The element described by what stands between the brackets of a tag. -/
def tagNode (line inner : List Char) : Except LineError Node :=
  let name := inner.takeWhile (· != ' ')
  if name.isEmpty then .error .missingName
  else
    (attributesOf line (inner.dropWhile (· != ' '))).map fun attributes =>
      .element (String.ofList name) attributes []

/-- The node that a line describes. The line has no blanks around it, and its element has no
children yet. -/
def lineNode (line : List Char) : Except LineError Node :=
  match line with
  | '"' :: _ => (closingText line).map .text
  | 'r' :: 'a' :: 'w' :: ' ' :: rest => (closingText (Text.trimStart rest)).map .raw
  | '<' :: rest =>
    if rest.getLast? = some '>' then tagNode line rest.dropLast else .error (.unrecognized line)
  | _ => if line = "!doctype".toList then .ok .doctype else .error (.unrecognized line)

end HtmlTape.Outline
