import HtmlTape.Recorder.Level
import HtmlTape.Tape.Recording

/-!
# Recorder

A recorder takes a document down as it is described. Children are recorded before their owner
and then claimed by it, or between the opening and the closing of their owner, in any mixture.
The recorder is the stack of the open levels, the names met so far and some counters.
-/

namespace HtmlTape

/-- The state of a recording. -/
structure Recorder where
  /-- The innermost level. -/
  current : Level
  /-- The levels around it, the innermost of them first. -/
  outer : List Level
  names : Names
  counters : Counters
  /-- How many ids were given out. -/
  ids : Nat
deriving DecidableEq

namespace Recorder

/-- A recorder on which nothing was recorded. -/
def new : Recorder where
  current := Level.root
  outer := []
  names := Names.standard
  counters := Counters.zero
  ids := 0

/-- How many elements are open. -/
def depth (r : Recorder) : Nat :=
  (r.current :: r.outer).countP fun level => level.scope matches .element _

/-- The open levels, the innermost first. -/
def levels (r : Recorder) : List Level := r.current :: r.outer

/-- The words recorded so far. -/
def words (r : Recorder) : Array Nat := Level.wordsAll r.levels

def pool (r : Recorder) : String := Level.poolAll r.levels

/-- The entries that no owner has claimed, those of the outermost level first. -/
def deferred (r : Recorder) : List Entry := Level.entriesAll r.levels

/-! ### Names and ids -/

/-- The code of an element name, and the recorder that knows the name. -/
def internElement (r : Recorder) (name : String) : Except NameError (ElementName × Recorder) :=
  (r.names.internElement name).map fun (code, names) => (code, { r with names })

def internAttribute (r : Recorder) (name : String) : Except NameError (AttributeName × Recorder) :=
  (r.names.internAttribute name).map fun (code, names) => (code, { r with names })

/-- The next id that no earlier call for this document has given out. -/
def nextId (r : Recorder) : String × Recorder :=
  (s!"html-{r.ids + 1}", { r with ids := r.ids + 1 })

/-! ### Leaves -/

/-- Record a leaf with its literal text; the answer is the offset of the leaf. -/
def putLeaf (r : Recorder) (leaf : Literal → Leaf) (text : String) : Nat × Recorder :=
  (r.current.here, { r with current := r.current.putLeaf leaf text })

/-- Count a text or a piece of raw markup. -/
def countText (r : Recorder) : Recorder :=
  { r with counters := { r.counters with texts := r.counters.texts + 1 } }

def countAttribute (r : Recorder) : Recorder :=
  { r with counters := { r.counters with attributes := r.counters.attributes + 1 } }

def text (r : Recorder) (value : String) : Nat × Recorder :=
  r.countText.putLeaf .text value

/-- Record markup that is written as it is. -/
def raw (r : Recorder) (value : String) : Nat × Recorder :=
  r.countText.putLeaf .raw value

def doctype (r : Recorder) : Nat × Recorder :=
  r.putLeaf (fun _ => .doctype) ""

def valuedAttribute (r : Recorder) (name : AttributeName) (value : String) :
    Except Fault (Nat × Recorder) := do
  let _ ← r.names.attributeText name
  return r.countAttribute.putLeaf (.valued name) value

/-- Record an attribute without a value. -/
def booleanAttribute (r : Recorder) (name : AttributeName) : Except Fault (Nat × Recorder) := do
  let _ ← r.names.attributeText name
  return r.countAttribute.putLeaf (fun _ => .boolean name) ""

def preparedAttribute (r : Recorder) (prepared : PreparedAttribute) :
    Except Fault (Nat × Recorder) :=
  r.valuedAttribute prepared.name prepared.value

def preparedAttributes (r : Recorder) (prepared : List PreparedAttribute) :
    Except Fault Recorder :=
  prepared.foldlM (fun r p => (r.preparedAttribute p).map (·.2)) r

/-! ### Opening levels -/

/-- Open a level inside of `outer`, the innermost level without the entries that the new level
takes over. -/
def enter (r : Recorder) (scope : Scope) (outer : Level) (entries : Array Entry) : Recorder :=
  { r with
    current := ⟨scope, outer.here, outer.poolHere, #[], "", entries⟩
    outer := outer :: r.outer
    counters := { r.counters with maxDepth := max r.counters.maxDepth (r.outer.length + 1) } }

/-- Open an element inside of `outer`; its name must be one that this recorder knows. -/
def enterElement (r : Recorder) (name : ElementName) (outer : Level) (entries : Array Entry) :
    Except Fault Recorder := do
  let _ ← r.names.elementText name
  return r.enter (.element name) outer entries

/-- Open an element whose entries are still to be recorded. -/
def openElement (r : Recorder) (name : ElementName) : Except Fault Recorder :=
  r.enterElement name r.current #[]

/-- Open an element with prepared attributes, which are recorded now and come first, and with
the entries that the arguments claim. -/
def openElementWith (r : Recorder) (name : ElementName) (prepared : List PreparedAttribute)
    (args : List Token) : Except Fault Recorder := do
  let (outer, claimed) ← r.current.claim args
  let inner ← r.enterElement name outer #[]
  let inner ← inner.preparedAttributes prepared
  return { inner with
    current := { inner.current with entries := inner.current.entries ++ claimed } }

/-- Open an element with the entries that the arguments claim. -/
def openElementClaiming (r : Recorder) (name : ElementName) (args : List Token) :
    Except Fault Recorder :=
  r.openElementWith name [] args

/-- Open an element with the last `count` entries of the innermost level. -/
def adopt (r : Recorder) (name : ElementName) (count : Nat) : Except Fault Recorder := do
  let (outer, adopted) ← r.current.adopt count
  r.enterElement name outer adopted

def beginFragment (r : Recorder) : Recorder :=
  r.enter .fragment r.current #[]

/-! ### Closing levels -/

/-- Count the references that closing a level writes. -/
def countSplices (r : Recorder) (refs : List Ref) : Recorder :=
  { r with counters := { r.counters with splices := r.counters.splices + refs.length } }

/-- The words of a list of references. -/
def refWords (refs : List Ref) : Array Nat :=
  (refs.map Ref.record).toArray

/-- The words of an element: its head, the words recorded inside of it, and its references. -/
def elementWords (name : ElementName) (inner : Array Nat) (refs : List Ref) : Array Nat :=
  #[Tag.element.word, inner.size + refs.length + 5, name.code] ++ inner ++ refWords refs ++
    #[refs.length, Tag.elementEnd.word]

/-- Close the innermost level, which must be an element. A void element may own attributes
only. -/
def closeElement (r : Recorder) : Except Fault (Nat × Recorder) :=
  match r.current.scope, r.outer with
  | .element name, parent :: outer =>
    let level := r.current
    let refs := level.refs
    if name.kind.isVoid ∧ refs.any (!·.isAttribute) then do
      throw (.voidWithChildren (← r.names.elementText name))
    else
      let r := r.countSplices refs
      .ok (level.start,
        { r with
          current := parent.absorb (elementWords name level.words refs) level.pool
            (.single level.start false)
          outer
          counters := { r.counters with elements := r.counters.elements + 1 } })
  | _, _ => .error .closeWithoutOpen

/-- End the innermost level, which must be a fragment. -/
def endFragment (r : Recorder) : Except Fault (Nat × Recorder) :=
  match r.current.scope, r.outer with
  | .fragment, parent :: outer =>
    let level := r.current
    let refs := level.refs
    let r := r.countSplices refs
    .ok (level.here,
      { r with
        current := parent.absorb
          (level.words ++ #[Tag.fragment.word, refs.length] ++ refWords refs) level.pool
          ⟨level.here, refs⟩
        outer
        counters := { r.counters with fragments := r.counters.fragments + 1 } })
  | _, _ => .error .endWithoutFragment

/-- Make a fragment of the entries that the arguments claim. -/
def fragment (r : Recorder) (args : List Token) : Except Fault (Nat × Recorder) := do
  let (outer, claimed) ← r.current.claim args
  (r.enter .fragment outer claimed).endFragment

/-- Drop the innermost level, which must be a fragment, with everything recorded in it. Names
and counters are kept. -/
def abortFragment (r : Recorder) : Except Fault Recorder :=
  match r.current.scope, r.outer with
  | .fragment, parent :: outer => .ok { r with current := parent, outer }
  | _, _ => .error .abortWithoutFragment

/-! ### Finishing -/

/-- The element that a level belongs to, for a message. -/
def innermostName (r : Recorder) : Except Fault (Option String) :=
  match r.current.scope with
  | .element name => (r.names.elementText name).map some
  | _ => .ok none

/-- Finish the document. No level may be open, and no attribute may be left outside of an
element. The recorder is as good as new afterwards. -/
def finish (r : Recorder) : Except Fault (Recording × Recorder) :=
  if r.outer ≠ [] then do
    throw (.unfinished r.outer.length (← r.innermostName))
  else
    let refs := r.current.refs
    if refs.any Ref.isAttribute then .error .strayAttribute
    else
      .ok ({ words := r.current.words ++ #[Tag.root.word, refs.length] ++ refWords refs
             pool := r.current.pool
             names := r.names
             root := r.current.words.size
             counters := (r.countSplices refs).counters }, new)

end Recorder

end HtmlTape
