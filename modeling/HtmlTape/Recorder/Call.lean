import HtmlTape.Recorder.Basic

/-!
# Calls of a recorder

The calls of a recorder as data, so that a whole course of recording is a list. Names stand in a
call in some form: as codes, or as they are spelled. A call with spelled names first has its
names looked up, the element's before those of its attributes; if one of them gets no code, the
names before it are known to the recorder all the same, and nothing else happens.
-/

namespace HtmlTape

/-- A call of a recorder, with element names of type `E` and attribute names of type `A`. -/
inductive Call (E A : Type) where
  | text (value : String)
  | raw (value : String)
  | doctype
  | valued (name : A) (value : String)
  | boolean (name : A)
  | openElement (name : E)
  | openWith (name : E) (prepared : List (A × String)) (args : List Token)
  | adopt (name : E) (count : Nat)
  | closeElement
  | beginFragment
  | fragment (args : List Token)
  | endFragment
  | abortFragment
  | finish
  | reset
  | nextId
  | internElement (name : E)
  | internAttribute (name : A)
deriving DecidableEq

/-- The answer of a recorder to a call. -/
inductive Answer where
  | done
  /-- The offset of what was recorded. -/
  | record (offset : Nat)
  | recording (recording : Recording)
  | id (id : String)
  | element (name : ElementName)
  | attr (name : AttributeName)
  /-- A name got no code, and nothing was recorded. -/
  | refused (error : NameError)
deriving DecidableEq

def Answer.ofRecord {σ : Type} : Nat × σ → Answer × σ
  | (offset, r) => (.record offset, r)

def Answer.ofRecorder {σ : Type} (r : σ) : Answer × σ :=
  (.done, r)

namespace Recorder

/-- The answer to a call with names as codes, and the state afterwards. -/
def step (r : Recorder) : Call ElementName AttributeName → Except Fault (Answer × Recorder)
  | .text value => .ok (Answer.ofRecord (r.text value))
  | .raw value => .ok (Answer.ofRecord (r.raw value))
  | .doctype => .ok (Answer.ofRecord r.doctype)
  | .valued name value => (r.valuedAttribute name value).map Answer.ofRecord
  | .boolean name => (r.booleanAttribute name).map Answer.ofRecord
  | .openElement name => (r.openElement name).map Answer.ofRecorder
  | .openWith name prepared args =>
    let prepared := prepared.map fun (name, value) => PreparedAttribute.mk name value
    (r.openElementWith name prepared args).map Answer.ofRecorder
  | .adopt name count => (r.adopt name count).map Answer.ofRecorder
  | .closeElement => r.closeElement.map Answer.ofRecord
  | .beginFragment => .ok (.done, r.beginFragment)
  | .fragment args => (r.fragment args).map Answer.ofRecord
  | .endFragment => r.endFragment.map Answer.ofRecord
  | .abortFragment => r.abortFragment.map Answer.ofRecorder
  | .finish => r.finish.map fun (recording, r) => (.recording recording, r)
  | .reset => .ok (.done, new)
  | .nextId => let (id, r) := r.nextId; .ok (.id id, r)
  | .internElement name => .ok (.element name, r)
  | .internAttribute name => .ok (.attr name, r)

/-- A course of calls with names as codes, and its answers. -/
def run (r : Recorder) : List (Call ElementName AttributeName) →
    Except Fault (List Answer × Recorder)
  | [] => .ok ([], r)
  | call :: calls => do
    let (answer, r) ← r.step call
    let (answers, r) ← r.run calls
    return (answer :: answers, r)

end Recorder

/-! ### Spelled names -/

/-- A name as it is spelled, or as a code. -/
inductive Spelling (α : Type) where
  | spelled (text : String)
  | coded (name : α)
deriving DecidableEq

/-- Looking up names may add names even if it fails later. -/
abbrev Lookup := ExceptT NameError (StateM Recorder)

namespace Lookup

/-- A lookup that leaves the names alone when it fails. -/
def of {α : Type} (intern : Recorder → String → Except NameError (α × Recorder)) :
    Spelling α → Lookup α
  | .coded name => pure name
  | .spelled text => fun r =>
    match intern r text with
    | .ok (name, r) => (.ok name, r)
    | .error e => (.error e, r)

def element (name : Spelling ElementName) : Lookup ElementName :=
  of Recorder.internElement name

def attr (name : Spelling AttributeName) : Lookup AttributeName :=
  of Recorder.internAttribute name

/-- A call with its names as codes. -/
def call : Call (Spelling ElementName) (Spelling AttributeName) →
    Lookup (Call ElementName AttributeName)
  | .text value => pure (.text value)
  | .raw value => pure (.raw value)
  | .doctype => pure .doctype
  | .valued name value => return .valued (← attr name) value
  | .boolean name => return .boolean (← attr name)
  | .openElement name => return .openElement (← element name)
  | .openWith name prepared args => do
    let name ← element name
    let prepared ← prepared.mapM fun (name, value) => return (← attr name, value)
    return .openWith name prepared args
  | .adopt name count => return .adopt (← element name) count
  | .closeElement => pure .closeElement
  | .beginFragment => pure .beginFragment
  | .fragment args => pure (.fragment args)
  | .endFragment => pure .endFragment
  | .abortFragment => pure .abortFragment
  | .finish => pure .finish
  | .reset => pure .reset
  | .nextId => pure .nextId
  | .internElement name => return .internElement (← element name)
  | .internAttribute name => return .internAttribute (← attr name)

end Lookup

namespace Recorder

/-- The answer to a call with spelled names, and the state afterwards. -/
def request (r : Recorder) (call : Call (Spelling ElementName) (Spelling AttributeName)) :
    Except Fault (Answer × Recorder) :=
  match (Lookup.call call).run r with
  | (.ok call, r) => r.step call
  | (.error e, r) => .ok (.refused e, r)

/-- The answer to a course of calls with spelled names, which ends at the first refused name. -/
def requestAll (r : Recorder) : List (Call (Spelling ElementName) (Spelling AttributeName)) →
    Except Fault (Answer × Recorder)
  | [] => .ok (.done, r)
  | call :: calls => do
    match ← r.request call with
    | (.refused e, r) => return (.refused e, r)
    | (_, r) => r.requestAll calls

end Recorder

end HtmlTape
