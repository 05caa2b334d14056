import HtmlTape.Recorder.Basic

/-!
# Builder

Building a document from the inside out: the arguments of an element are recorded before the
element, and the element claims them by their tokens. Every call answers the token of what it
has recorded.
-/

namespace HtmlTape

abbrev Build := StateT Recorder (Except Fault)

namespace Build

/-- A step that records an entry. -/
def entry (kind : TokenKind) (record : Recorder → Except Fault (Nat × Recorder)) : Build Token :=
  fun r => (record r).map fun (offset, r) => (.entry kind offset, r)

/-- A step that answers nothing. -/
def act (step : Recorder → Except Fault Recorder) : Build Unit :=
  fun r => (step r).map fun r => ((), r)

/-- Look up a name. A name that gets no code changes nothing. -/
def lookUp {α : Type} (intern : Recorder → String → Except NameError (α × Recorder))
    (name : String) : Build (Except NameError α) :=
  fun r =>
    match intern r name with
    | .ok (code, r) => .ok (.ok code, r)
    | .error e => .ok (.error e, r)

/-- Look up a name that must get a code. -/
def require {α : Type} (intern : Recorder → String → Except NameError (α × Recorder))
    (name : String) : Build α := do
  match ← lookUp intern name with
  | .ok code => return code
  | .error e => throw (.refusedName e)

def elementName (name : String) : Build ElementName := require Recorder.internElement name

def attributeName (name : String) : Build AttributeName := require Recorder.internAttribute name

/-- An id that is not used yet. -/
def nextId : Build String := fun r => .ok r.nextId

/-! ### Leaves -/

def doctype : Build Token := entry .doctype fun r => .ok r.doctype

def text (value : String) : Build Token := entry .text fun r => .ok (r.text value)

/-- Markup that is written as it is. -/
def raw (value : String) : Build Token := entry .raw fun r => .ok (r.raw value)

def attr (name : AttributeName) (value : String) : Build Token :=
  entry .attr fun r => r.valuedAttribute name value

/-- An attribute without a value. -/
def boolAttr (name : AttributeName) : Build Token :=
  entry .attr fun r => r.booleanAttribute name

def id (value : String) : Build Token := attr .id value

def className (value : String) : Build Token := attr .className value

/-- A prepared attribute, as an argument of its own. -/
def prepared (p : PreparedAttribute) : Build Token :=
  entry .attr fun r => r.preparedAttribute p

/-! ### Elements and fragments -/

/-- An element with prepared attributes before the arguments it claims. -/
def elementWith (name : ElementName) (attributes : List PreparedAttribute) (args : List Token) :
    Build Token := do
  act fun r => r.openElementWith name attributes args
  entry .element Recorder.closeElement

def element (name : ElementName) (args : List Token) : Build Token :=
  elementWith name [] args

def elementText (name : ElementName) (value : String) : Build Token := do
  let child ← text value
  element name [child]

def flatten (args : List Token) : Build Token := entry .fragment fun r => r.fragment args

/-- Everything that `content` records, as one argument. -/
def collect {m : Type → Type} [Monad m] [MonadLiftT Build m] (content : m Unit) : m Token := do
  liftM (act fun r => .ok r.beginFragment)
  content
  liftM (entry .fragment Recorder.endFragment)

/-- Everything that `content` records, as one argument. If `content` fails, nothing of it is
kept. -/
def tryCollect {m : Type → Type} {ε : Type} [Monad m] [MonadLiftT Build m]
    (content : m (Except ε Unit)) : m (Except ε Token) := do
  liftM (act fun r => .ok r.beginFragment)
  match ← content with
  | .ok () =>
    let token ← liftM (entry .fragment Recorder.endFragment)
    return .ok token
  | .error e =>
    liftM (act Recorder.abortFragment)
    return .error e

/-- Finish the document and begin another one. -/
def take : Build Recording := Recorder.finish

def document (content : Build Unit) : Except Fault Recording := do
  let ((), r) ← content Recorder.new
  let (t, _) ← r.finish
  return t

end Build

end HtmlTape
