import HtmlTape.Recorder.Token
import HtmlTape.Tape.Record

/-!
# Levels

While a document is recorded, each open element or fragment is a level, and so is the document
itself. A level owns the words and the literal text that were recorded inside of it, and the
entries that no inner level has taken away. When it is closed, its words and its text are
appended to those of the level around it.
-/

namespace HtmlTape

/-- What a level belongs to. -/
inductive Scope where
  | root
  | element (name : ElementName)
  | fragment
deriving DecidableEq

/-- The words that stand before those inside of a level. The size of an open element is not
known yet. -/
def Scope.head : Scope → Array Nat
  | element name => #[Tag.element.word, 0, name.code]
  | root | fragment => #[]

/-- A reference to a record, with what has to be known about the record. -/
structure Ref where
  record : Nat
  isAttribute : Bool
deriving DecidableEq

/-- An entry of a level: the record it stands for, and the references that the owner of the
entry gets. These are one reference to the record itself, or the references of a fragment. -/
structure Entry where
  record : Nat
  refs : List Ref
deriving DecidableEq

/-- The entry for a record that is referred to itself. -/
def Entry.single (record : Nat) (isAttribute : Bool) : Entry :=
  ⟨record, [⟨record, isAttribute⟩]⟩

/-- An open level. -/
structure Level where
  scope : Scope
  /-- The offset of its first word. -/
  start : Nat
  /-- The offset of its literal text. -/
  poolStart : Nat
  words : Array Nat
  /-- The literal text recorded inside of it. -/
  pool : String
  /-- The entries it owns, in the order of recording. -/
  entries : Array Entry
deriving DecidableEq

namespace Level

def root : Level := ⟨.root, 0, 0, #[], "", #[]⟩

/-- The offset of the next word. -/
def here (level : Level) : Nat :=
  level.start + level.scope.head.size + level.words.size

/-- The offset of the next literal. -/
def poolHere (level : Level) : Nat :=
  level.poolStart + level.pool.utf8ByteSize

/-- The references that the owner of the level's entries gets. -/
def refs (level : Level) : List Ref :=
  level.entries.toList.flatMap Entry.refs

/-- Record a leaf with the literal text it names. -/
def putLeaf (level : Level) (leaf : Literal → Leaf) (text : String) : Level :=
  let record := leaf ⟨level.poolHere, text.utf8ByteSize⟩
  { level with
    words := level.words ++ record.words
    pool := level.pool ++ text
    entries := level.entries.push (.single level.here record.isAttribute) }

/-- Take over the words and the text of an inner level, with an entry for it. -/
def absorb (level : Level) (words : Array Nat) (pool : String) (entry : Entry) : Level :=
  { level with
    words := level.words ++ words
    pool := level.pool ++ pool
    entries := level.entries.push entry }

/-- Take away the last `n` entries. -/
def split (level : Level) (n : Nat) : Level × Array Entry :=
  let kept := level.entries.size - n
  ({ level with entries := level.entries.extract 0 kept },
    level.entries.extract kept level.entries.size)

/-- The position of the first argument that is not the entry in its place. -/
def misplaced? (records : List Nat) (entries : List Entry) : Option Nat :=
  (records.zip entries).findIdx? fun (record, entry) => record != entry.record

/-- Take away the entries that a list of arguments names. They must be the last entries of the
level, in the same order. -/
def claim (level : Level) (args : List Token) : Except Fault (Level × Array Entry) :=
  let records := args.filterMap Token.record?
  if level.entries.size < records.length then
    .error (.overclaimed records.length level.entries.size)
  else
    let (rest, claimed) := level.split records.length
    match misplaced? records claimed.toList with
    | some position => .error (.misplacedArgument position)
    | none => .ok (rest, claimed)

/-- Take away the last `count` entries, whatever they are. -/
def adopt (level : Level) (count : Nat) : Except Fault (Level × Array Entry) :=
  if level.entries.size < count then .error (.overadopted count level.entries.size)
  else .ok (level.split count)

/-! ### Stacks of levels -/

/-- The words recorded on some levels, the innermost first, with a blank size in the head of each
open element. -/
def wordsAll (levels : List Level) : Array Nat :=
  levels.reverse.foldl (fun words level => words ++ level.scope.head ++ level.words) #[]

/-- The literal text of some levels, the innermost first. -/
def poolAll (levels : List Level) : String :=
  levels.reverse.foldl (fun pool level => pool ++ level.pool) ""

/-- The entries of some levels, the innermost first; those of the outermost come first. -/
def entriesAll (levels : List Level) : List Entry :=
  levels.reverse.flatMap fun level => level.entries.toList

theorem wordsAll_cons (level : Level) (outer : List Level) :
    wordsAll (level :: outer) = wordsAll outer ++ level.scope.head ++ level.words := by
  rw [wordsAll, List.reverse_cons, List.foldl_append]
  rfl

theorem poolAll_cons (level : Level) (outer : List Level) :
    poolAll (level :: outer) = poolAll outer ++ level.pool := by
  rw [poolAll, List.reverse_cons, List.foldl_append]
  rfl

theorem entriesAll_cons (level : Level) (outer : List Level) :
    entriesAll (level :: outer) = entriesAll outer ++ level.entries.toList := by
  rw [entriesAll, List.reverse_cons, List.flatMap_append, List.flatMap_singleton]
  rfl

end Level

end HtmlTape
