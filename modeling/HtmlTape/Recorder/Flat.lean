import HtmlTape.Recorder.Call
import HtmlTape.Tape.Index

/-!
# The flat recorder

A recorder keeps all its levels in one place each: a single row of words, a single pool, and a
single table of the entries that no owner has claimed yet. A level only notes where its part of
each of them begins. Closing a level looks its entries up in the words, writes references to what
they stand for, and fills in the size that was left blank; dropping a fragment cuts all three off
where the fragment began. Every offset and every length is checked to be a word.
-/

namespace HtmlTape

/-- An open level, by the places where it begins. -/
structure FlatLevel where
  scope : Scope
  /-- The offset of its first word. -/
  start : Nat
  /-- The place of its first entry in the table. -/
  deferredStart : Nat
  /-- The offset of its literal text. -/
  poolStart : Nat
deriving DecidableEq

/-- The state of a recording. -/
@[ext]
structure FlatRecorder where
  words : Array Nat
  pool : String
  names : Names
  /-- The offsets of the entries that no owner has claimed. -/
  deferred : Array Nat
  /-- The innermost level. -/
  current : FlatLevel
  /-- The levels around it, the innermost of them first. -/
  outer : List FlatLevel
  counters : Counters
  /-- How many ids were given out. -/
  ids : Nat
deriving DecidableEq

namespace FlatRecorder

def new : FlatRecorder where
  words := #[]
  pool := ""
  names := Names.standard
  deferred := #[]
  current := ⟨.root, 0, 0, 0⟩
  outer := []
  counters := Counters.zero
  ids := 0

def depth (r : FlatRecorder) : Nat :=
  (r.current :: r.outer).countP fun level => level.scope matches .element _

/-- The next id that no earlier call for this document has given out. -/
def nextId (r : FlatRecorder) : String × FlatRecorder :=
  (s!"html-{r.ids + 1}", { r with ids := r.ids + 1 })

/-! ### Leaves -/

/-- The offset of the next word. -/
def here (r : FlatRecorder) : Except Fault Nat := index r.words.size

/-- Put a text into the pool. Its end must have an offset, too. -/
def literal (r : FlatRecorder) (text : String) : Except Fault (Literal × FlatRecorder) := do
  let offset ← index r.pool.utf8ByteSize
  let pool := r.pool ++ text
  let _ ← index pool.utf8ByteSize
  let size ← index text.utf8ByteSize
  return (⟨offset, size⟩, { r with pool })

def push (r : FlatRecorder) (words : Array Nat) : FlatRecorder :=
  { r with words := r.words ++ words }

/-- Make the record at an offset an entry of the innermost level. -/
def register (r : FlatRecorder) (record : Nat) : Nat × FlatRecorder :=
  (record, { r with deferred := r.deferred.push record })

/-- Record a leaf with its literal text. -/
def putLeaf (r : FlatRecorder) (leaf : Literal → Leaf) (text : String) :
    Except Fault (Nat × FlatRecorder) := do
  let start ← r.here
  let (literal, r) ← r.literal text
  return (r.push (leaf literal).words.toArray).register start

/-- Record a leaf that has no literal text. -/
def putMark (r : FlatRecorder) (leaf : Leaf) : Except Fault (Nat × FlatRecorder) := do
  let start ← r.here
  return (r.push leaf.words.toArray).register start

/-- Count a text or a piece of raw markup. -/
def countText (r : FlatRecorder) : FlatRecorder :=
  { r with counters := { r.counters with texts := r.counters.texts + 1 } }

def countAttribute (r : FlatRecorder) : FlatRecorder :=
  { r with counters := { r.counters with attributes := r.counters.attributes + 1 } }

def text (r : FlatRecorder) (value : String) : Except Fault (Nat × FlatRecorder) :=
  r.countText.putLeaf .text value

def raw (r : FlatRecorder) (value : String) : Except Fault (Nat × FlatRecorder) :=
  r.countText.putLeaf .raw value

def doctype (r : FlatRecorder) : Except Fault (Nat × FlatRecorder) :=
  r.putMark .doctype

def valuedAttribute (r : FlatRecorder) (name : AttributeName) (value : String) :
    Except Fault (Nat × FlatRecorder) := do
  let _ ← r.names.attributeText name
  r.countAttribute.putLeaf (.valued name) value

/-- Record an attribute without a value. -/
def booleanAttribute (r : FlatRecorder) (name : AttributeName) :
    Except Fault (Nat × FlatRecorder) := do
  let _ ← r.names.attributeText name
  r.countAttribute.putMark (.boolean name)

def preparedAttributes (r : FlatRecorder) (prepared : List PreparedAttribute) :
    Except Fault FlatRecorder :=
  prepared.foldlM (fun r p => (r.valuedAttribute p.name p.value).map (·.2)) r

/-! ### Opening levels -/

/-- The name of an element must be one that the document knows. -/
def checkName (names : Names) : Scope → Except Fault Unit
  | .element name => do let _ ← names.elementText name
  | .root | .fragment => return

/-- Open a level whose entries begin at a place of the table. -/
def enter (r : FlatRecorder) (scope : Scope) (deferredStart : Nat) :
    Except Fault FlatRecorder := do
  let start ← r.here
  checkName r.names scope
  return { r with
    words := r.words ++ scope.head
    current := ⟨scope, start, deferredStart, r.pool.utf8ByteSize⟩
    outer := r.current :: r.outer
    counters := { r.counters with maxDepth := max r.counters.maxDepth (r.outer.length + 1) } }

/-- How many entries the innermost level owns. -/
def available (r : FlatRecorder) : Nat := r.deferred.size - r.current.deferredStart

/-- The place of the table where the entries begin that a list of arguments names. They must be
the last entries of the innermost level, in the same order. -/
def claim (r : FlatRecorder) (args : List Token) : Except Fault Nat :=
  let records := args.filterMap Token.record?
  if r.available < records.length then .error (.overclaimed records.length r.available)
  else
    let start := r.deferred.size - records.length
    let claimed := (r.deferred.extract start r.deferred.size).toList
    match (records.zip claimed).findIdx? fun (record, entry) => record != entry with
    | some position => .error (.misplacedArgument position)
    | none => .ok start

/-- Rotate the entries from a place of the table on, so that the last `count` of them come
first. -/
def rotate (r : FlatRecorder) (start count : Nat) : FlatRecorder :=
  let kept := r.deferred.extract 0 start
  let rotated := r.deferred.extract start r.deferred.size
  { r with deferred := kept ++ rotated.toList.rotateRight count }

/-- Open an element whose entries are still to be recorded. -/
def openElement (r : FlatRecorder) (name : ElementName) : Except Fault FlatRecorder :=
  r.enter (.element name) r.deferred.size

/-- Open an element with prepared attributes, which are recorded now and come first, and with
the entries that the arguments claim. -/
def openElementWith (r : FlatRecorder) (name : ElementName) (prepared : List PreparedAttribute)
    (args : List Token) : Except Fault FlatRecorder := do
  let start ← r.claim args
  let r ← r.enter (.element name) start
  let r ← r.preparedAttributes prepared
  return r.rotate start prepared.length

/-- Open an element with the last `count` entries of the innermost level. -/
def adopt (r : FlatRecorder) (name : ElementName) (count : Nat) : Except Fault FlatRecorder :=
  if r.available < count then .error (.overadopted count r.available)
  else r.enter (.element name) (r.deferred.size - count)

def beginFragment (r : FlatRecorder) : Except Fault FlatRecorder :=
  r.enter .fragment r.deferred.size

/-! ### Looking records up -/

/-- The record at an offset is an attribute. -/
def isAttribute (words : Array Nat) (record : Nat) : Bool :=
  words[record]? == some Tag.valued.word || words[record]? == some Tag.boolean.word

/-- The records that an entry stands for: those that a fragment refers to, or the entry's own. -/
def expand (words : Array Nat) (entry : Nat) : List Nat :=
  if words[entry]? = some Tag.fragment.word then
    let count := words[entry + 1]?.getD 0
    (words.extract (entry + 2) (entry + 2 + count)).toList
  else [entry]

/-- Some record that the entries from a place of the table on stand for passes a test. -/
def anyExpanded (r : FlatRecorder) (start : Nat) (p : Nat → Bool) : Bool :=
  (r.deferred.extract start r.deferred.size).any fun entry => (expand r.words entry).any p

/-- Write the references that an entry stands for, and count them. -/
def spliceEntry : Array Nat × Nat → Nat → Array Nat × Nat
  | (words, count), entry =>
    let refs := expand words entry
    (words ++ refs.toArray, count + refs.length)

/-- Write the references that the entries from a place of the table on stand for, and drop the
entries. The answer is how many references there are. -/
def splice (r : FlatRecorder) (start : Nat) : Except Fault (Nat × FlatRecorder) := do
  let (words, count) :=
    (r.deferred.extract start r.deferred.size).foldl spliceEntry (r.words, 0)
  let n ← index count
  return (n, { r with
    words
    deferred := r.deferred.extract 0 start
    counters := { r.counters with splices := r.counters.splices + count } })

/-- Fill in a word that was left blank. -/
def patch (r : FlatRecorder) (offset word : Nat) : FlatRecorder :=
  { r with words := r.words.setIfInBounds offset word }

/-! ### Closing levels -/

/-- Write the references of the entries from a place of the table on behind a tag and the number
of them. The answer is the offset of the tag. -/
def putRow (r : FlatRecorder) (tag : Tag) (deferredStart : Nat) :
    Except Fault (Nat × FlatRecorder) := do
  let start ← r.here
  let (n, r) ← (r.push #[tag.word, 0]).splice deferredStart
  return (start, r.patch (start + 1) n)

def countElement (r : FlatRecorder) : FlatRecorder :=
  { r with counters := { r.counters with elements := r.counters.elements + 1 } }

def countFragment (r : FlatRecorder) : FlatRecorder :=
  { r with counters := { r.counters with fragments := r.counters.fragments + 1 } }

/-- Write the end of an element: the references of its entries, the number of them and the end
mark. The size of the element is known then. -/
def endElement (r : FlatRecorder) (level : FlatLevel) : Except Fault (Nat × FlatRecorder) := do
  let (n, r) ← r.splice level.deferredStart
  let r := r.push #[n, Tag.elementEnd.word]
  let size ← index (r.words.size - level.start)
  return (r.patch (level.start + 1) size).countElement.register level.start

def leave (r : FlatRecorder) (parent : FlatLevel) (outer : List FlatLevel) : FlatRecorder :=
  { r with current := parent, outer }

/-- Close the innermost level, which must be an element. A void element may own attributes
only. -/
def closeElement (r : FlatRecorder) : Except Fault (Nat × FlatRecorder) :=
  match r.current.scope, r.outer with
  | .element name, parent :: outer =>
    if name.kind.isVoid ∧ r.anyExpanded r.current.deferredStart (!isAttribute r.words ·) then do
      throw (.voidWithChildren (← r.names.elementText name))
    else (r.leave parent outer).endElement r.current
  | _, _ => .error .closeWithoutOpen

/-- End the innermost level, which must be a fragment. -/
def endFragment (r : FlatRecorder) : Except Fault (Nat × FlatRecorder) :=
  match r.current.scope, r.outer with
  | .fragment, parent :: outer => do
    let (start, r) ← (r.leave parent outer).putRow .fragment r.current.deferredStart
    return r.countFragment.register start
  | _, _ => .error .endWithoutFragment

/-- Make a fragment of the entries that the arguments claim. -/
def fragment (r : FlatRecorder) (args : List Token) : Except Fault (Nat × FlatRecorder) := do
  let start ← r.claim args
  (← r.enter .fragment start).endFragment

/-- Cut everything off that was recorded since a level was opened. -/
def cut (r : FlatRecorder) (level : FlatLevel) : Except Fault FlatRecorder := do
  let pool ← (Literal.mk 0 level.poolStart).read r.pool
  return { r with
    deferred := r.deferred.extract 0 level.deferredStart
    words := r.words.extract 0 level.start
    pool }

/-- Drop the innermost level, which must be a fragment, with everything recorded in it. Names
and counters are kept. -/
def abortFragment (r : FlatRecorder) : Except Fault FlatRecorder :=
  match r.current.scope, r.outer with
  | .fragment, parent :: outer => (r.leave parent outer).cut r.current
  | _, _ => .error .abortWithoutFragment

/-! ### Finishing -/

/-- The element that a level belongs to, for a message. -/
def innermostName (r : FlatRecorder) : Except Fault (Option String) :=
  match r.current.scope with
  | .element name => (r.names.elementText name).map some
  | _ => .ok none

/-- Finish the document. No level may be open, and no attribute may be left outside of an
element. The recorder is as good as new afterwards. -/
def finish (r : FlatRecorder) : Except Fault (Recording × FlatRecorder) :=
  if r.outer ≠ [] then do
    throw (.unfinished r.outer.length (← r.innermostName))
  else if r.anyExpanded 0 (isAttribute r.words) then .error .strayAttribute
  else do
    let (root, r) ← r.putRow .root 0
    return ({ words := r.words, pool := r.pool, names := r.names, root, counters := r.counters },
      new)

/-! ### Calls -/

def step (r : FlatRecorder) :
    Call ElementName AttributeName → Except Fault (Answer × FlatRecorder)
  | .text value => (r.text value).map Answer.ofRecord
  | .raw value => (r.raw value).map Answer.ofRecord
  | .doctype => r.doctype.map Answer.ofRecord
  | .valued name value => (r.valuedAttribute name value).map Answer.ofRecord
  | .boolean name => (r.booleanAttribute name).map Answer.ofRecord
  | .openElement name => (r.openElement name).map Answer.ofRecorder
  | .openWith name prepared args =>
    let prepared := prepared.map fun (name, value) => PreparedAttribute.mk name value
    (r.openElementWith name prepared args).map Answer.ofRecorder
  | .adopt name count => (r.adopt name count).map Answer.ofRecorder
  | .closeElement => r.closeElement.map Answer.ofRecord
  | .beginFragment => r.beginFragment.map Answer.ofRecorder
  | .fragment args => (r.fragment args).map Answer.ofRecord
  | .endFragment => r.endFragment.map Answer.ofRecord
  | .abortFragment => r.abortFragment.map Answer.ofRecorder
  | .finish => r.finish.map fun (recording, r) => (.recording recording, r)
  | .reset => .ok (.done, new)
  | .nextId => let (id, r) := r.nextId; .ok (.id id, r)
  | .internElement name => .ok (.element name, r)
  | .internAttribute name => .ok (.attr name, r)

/-- The call with its names as codes, and the names afterwards. -/
def lookUp (names : Names) (call : Call (Spelling ElementName) (Spelling AttributeName)) :
    Except NameError (Call ElementName AttributeName) × Names :=
  let (result, r) := (Lookup.call call).run { Recorder.new with names }
  (result, r.names)

def request (r : FlatRecorder) (call : Call (Spelling ElementName) (Spelling AttributeName)) :
    Except Fault (Answer × FlatRecorder) :=
  match lookUp r.names call with
  | (.ok call, names) => { r with names }.step call
  | (.error e, names) => .ok (.refused e, { r with names })

def requestAll (r : FlatRecorder) :
    List (Call (Spelling ElementName) (Spelling AttributeName)) →
    Except Fault (Answer × FlatRecorder)
  | [] => .ok (.done, r)
  | call :: calls => do
    match ← r.request call with
    | (.refused e, r) => return (.refused e, r)
    | (_, r) => r.requestAll calls

end FlatRecorder

end HtmlTape
