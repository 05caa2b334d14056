import HtmlTape.Markup.Entity

/-!
# Escaping text and attribute values

Every character of a text is either kept or replaced by a character reference. In text content
`&`, `<` and `>` are replaced. In an attribute value the quotes are replaced too, but an `&`
that already starts a well-formed character reference is kept; since no later character of such
a reference is ever replaced, the whole reference is kept then.

A writer emits the escaped text in chunks: the longest runs of kept characters, and each
replacement on its own.
-/

namespace HtmlTape.Markup

/-- What becomes of one character. -/
inductive Fate where
  /-- It is written as it is. -/
  | keep (c : Char)
  /-- It is written as a character reference. -/
  | replace (reference : String)
deriving DecidableEq

/-- The characters written for one character. -/
def Fate.written : Fate → List Char
  | keep c => [c]
  | replace reference => reference.toList

def written (fates : List Fate) : List Char :=
  fates.flatMap Fate.written

/-- The chunks in which a run of characters is written, after the kept characters `run`, the
last one first. -/
def chunksAfter (run : List Char) : List Fate → List String
  | [] => if run.isEmpty then [] else [String.ofList run.reverse]
  | .keep c :: rest => chunksAfter (c :: run) rest
  | .replace reference :: rest =>
    if run.isEmpty then reference :: chunksAfter [] rest
    else String.ofList run.reverse :: reference :: chunksAfter [] rest

/-- The chunks in which a run of characters is written: the longest runs of kept characters, and
each replacement on its own. -/
def chunks (fates : List Fate) : List String :=
  chunksAfter [] fates

/-- The result of escaping a text. -/
inductive Escaped where
  /-- Nothing had to be replaced. -/
  | unchanged (s : String)
  /-- Something was replaced. -/
  | rewritten (s : String)
deriving DecidableEq

namespace Escaped

def text : Escaped → String
  | unchanged s => s
  | rewritten s => s

def isUnchanged : Escaped → Bool
  | unchanged _ => true
  | rewritten _ => false

end Escaped

/-! ### Text content -/

/-- The fate of one character of text content. -/
def textFate (c : Char) : Fate :=
  if c = '&' then .replace "&amp;"
  else if c = '<' then .replace "&lt;"
  else if c = '>' then .replace "&gt;"
  else .keep c

def textFates (s : List Char) : List Fate :=
  s.map textFate

/-- The chunks in which text content is written; none for the empty text. -/
def textChunks (s : String) : List String :=
  chunks (textFates s.toList)

/-- A character that text content never holds as it is. -/
def isTextSpecial (c : Char) : Bool :=
  c == '&' || c == '<' || c == '>'

/-- Text content with every `&`, `<` and `>` replaced. -/
def escapeText (s : String) : Escaped :=
  if s.toList.any isTextSpecial then .rewritten (String.ofList (written (textFates s.toList)))
  else .unchanged s

/-! ### Attribute values -/

/-- The fate of the first character of the rest of an attribute value. -/
def valueFate (c : Char) (rest : List Char) : Fate :=
  if c = '<' then .replace "&lt;"
  else if c = '>' then .replace "&gt;"
  else if c = '"' then .replace "&#34;"
  else if c = '\'' then .replace "&#39;"
  else if c = '&' ∧ (referenceLength? (c :: rest)).isNone then .replace "&amp;"
  else .keep c

def valueFates : List Char → List Fate
  | [] => []
  | c :: rest => valueFate c rest :: valueFates rest

/-- The chunks in which an attribute value is written: the empty value is one empty chunk. -/
def valueChunks (s : String) : List String :=
  if s.isEmpty then [""] else chunks (valueFates s.toList)

/-- A character that may have to be replaced in an attribute value. -/
def isValueSpecial (c : Char) : Bool :=
  isTextSpecial c || c == '"' || c == '\''

/-- An attribute value made safe inside of double quotes. A value whose every `&` starts a
character reference may come out as it was. -/
def escapeValue (s : String) : Escaped :=
  if s.toList.any isValueSpecial then
    let out := String.ofList (written (valueFates s.toList))
    if out = s then .unchanged s else .rewritten out
  else .unchanged s

end HtmlTape.Markup
