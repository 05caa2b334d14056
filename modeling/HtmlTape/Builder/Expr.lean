import HtmlTape.Builder.Basic

/-!
# Markup expressions

Documents described by expressions. The arguments of an element are expressions themselves, and
evaluating them records them, from left to right. Tokens, names and prepared attributes can be
stored under a key and used later on, also where they do not belong.

An evaluation that ends in a fault keeps what it has noted down and the documents that it has
taken before.
-/

namespace HtmlTape

/-- A name in an expression: as it is spelled, or stored under a key. -/
inductive NameExpr where
  | spelled (name : String)
  | stored (key : String)
deriving DecidableEq

inductive PreparedExpr where
  | id (value : String)
  | className (value : String)
  | named (name : NameExpr) (value : String)
  | stored (key : String)
deriving DecidableEq

/-- An expression that describes markup. -/
inductive Expr where
  | doctype
  | noop
  | text (value : String)
  | raw (value : String)
  | id (value : String)
  | className (value : String)
  | attr (name : NameExpr) (value : String)
  | boolAttr (name : NameExpr)
  /-- An attribute whose value is an id that is not used yet. -/
  | idAttr (name : NameExpr)
  | prepared (p : PreparedExpr)
  | elementText (name : NameExpr) (value : String)
  | element (name : NameExpr) (args : List Expr)
  | elementWith (name : NameExpr) (attributes : List PreparedExpr) (args : List Expr)
  | flatten (args : List Expr)
  /-- Everything that the expressions record, as one argument. -/
  | collect (content : List Expr)
  /-- The same, unless it fails with an error. -/
  | attempt (content : List Expr) (failure : Option String)
  /-- Store the token of an expression. -/
  | bind (key : String) (value : Expr)
  /-- A stored token. -/
  | stored (key : String)
  | bindElement (key : String) (name : NameExpr)
  | bindAttribute (key : String) (name : NameExpr)
  | bindPrepared (key : String) (p : PreparedExpr)
  /-- Note down an id that is not used yet. -/
  | noteId
  /-- Note down the code of an element name, or why it gets none. -/
  | noteElement (name : String)
  | noteAttribute (name : String)
  /-- Finish the document and begin another one. -/
  | take

inductive Note where
  | id (id : String)
  | code (code : Nat)
  | refused (error : NameError)
  /-- An attempt failed with this error. -/
  | failed (failure : String)
deriving DecidableEq

structure Evaluation where
  recorder : Recorder
  tokens : List (String × Token)
  elements : List (String × ElementName)
  attributes : List (String × AttributeName)
  prepared : List (String × PreparedAttribute)
  notes : Array Note
  /-- The documents taken so far. -/
  taken : Array Recording

def Evaluation.new : Evaluation := ⟨Recorder.new, [], [], [], [], #[], #[]⟩

/-- A step of an evaluation. A fault keeps the state. -/
abbrev Eval := EStateM Fault Evaluation

namespace Eval

/-- A step of building as a step of an evaluation. -/
instance : MonadLift Build Eval where
  monadLift step := fun s =>
    match step s.recorder with
    | .ok (a, recorder) => .ok a { s with recorder }
    | .error fault => .error fault s

/-- What is stored under a key. -/
def stored {α : Type} (table : Evaluation → List (String × α)) (key : String) : Eval α := do
  match (table (← get)).lookup key with
  | some a => return a
  | none => throw (.unbound key)

def note (n : Note) : Eval Unit :=
  modify fun s => { s with notes := s.notes.push n }

def elementName : NameExpr → Eval ElementName
  | .spelled name => Build.elementName name
  | .stored key => stored Evaluation.elements key

def attributeName : NameExpr → Eval AttributeName
  | .spelled name => Build.attributeName name
  | .stored key => stored Evaluation.attributes key

def prepared : PreparedExpr → Eval PreparedAttribute
  | .id value => return ⟨.id, value⟩
  | .className value => return ⟨.className, value⟩
  | .named name value => return ⟨← attributeName name, value⟩
  | .stored key => stored Evaluation.prepared key

/-- Note down the code of a name, or why it gets none. -/
def noteCode {α : Type} (code : α → Nat) (lookUp : Build (Except NameError α)) : Eval Unit := do
  match ← (lookUp : Eval _) with
  | .ok name => note (.code (code name))
  | .error e => note (.refused e)

end Eval

namespace Expr

mutual

def eval : Expr → Eval Token
  | .doctype => Build.doctype
  | .noop => return .noop
  | .text value => Build.text value
  | .raw value => Build.raw value
  | .id value => Build.id value
  | .className value => Build.className value
  | .attr name value => do Build.attr (← Eval.attributeName name) value
  | .boolAttr name => do Build.boolAttr (← Eval.attributeName name)
  | .idAttr name => do
    let name ← Eval.attributeName name
    let id ← Build.nextId
    Build.attr name id
  | .prepared p => do Build.prepared (← Eval.prepared p)
  | .elementText name value => do Build.elementText (← Eval.elementName name) value
  | .element name args => do
    let name ← Eval.elementName name
    let args ← evalAll args
    Build.element name args
  | .elementWith name attributes args => do
    let name ← Eval.elementName name
    let attributes ← attributes.mapM Eval.prepared
    let args ← evalAll args
    Build.elementWith name attributes args
  | .flatten args => do Build.flatten (← evalAll args)
  | .collect content => Build.collect do
    let _ ← evalAll content
  | .attempt content failure => do
    let outcome ← Build.tryCollect do
      let _ ← evalAll content
      match failure with
      | none => return Except.ok ()
      | some e => return Except.error e
    match outcome with
    | .ok token => return token
    | .error e =>
      Eval.note (.failed e)
      return .noop
  | .bind key value => do
    let token ← eval value
    modify fun s => { s with tokens := (key, token) :: s.tokens }
    return token
  | .stored key => Eval.stored Evaluation.tokens key
  | .bindElement key name => do
    let name ← Eval.elementName name
    modify fun s => { s with elements := (key, name) :: s.elements }
    return .noop
  | .bindAttribute key name => do
    let name ← Eval.attributeName name
    modify fun s => { s with attributes := (key, name) :: s.attributes }
    return .noop
  | .bindPrepared key p => do
    let p ← Eval.prepared p
    modify fun s => { s with prepared := (key, p) :: s.prepared }
    return .noop
  | .noteId => do
    let id ← Build.nextId
    Eval.note (.id id)
    return .noop
  | .noteElement name => do
    Eval.noteCode ElementName.code (Build.lookUp Recorder.internElement name)
    return .noop
  | .noteAttribute name => do
    Eval.noteCode AttributeName.code (Build.lookUp Recorder.internAttribute name)
    return .noop
  | .take => do
    let t ← Build.take
    modify fun s => { s with taken := s.taken.push t }
    return .noop

/-- Evaluate expressions from left to right; the answer is their tokens. -/
def evalAll : List Expr → Eval (List Token)
  | [] => return []
  | e :: es => do
    let token ← eval e
    let tokens ← evalAll es
    return token :: tokens

end

/-- The course of an evaluation: the tokens of the expressions up to the first fault, the fault,
and the state at the end. -/
structure Course where
  tokens : List Token
  fault : Option Fault
  state : Evaluation

/-- Evaluate expressions one after another, up to the first fault. -/
def course (s : Evaluation) : List Expr → Course
  | [] => ⟨[], none, s⟩
  | e :: es =>
    match e.eval s with
    | .ok token s =>
      let rest := course s es
      { rest with tokens := token :: rest.tokens }
    | .error fault s => ⟨[], some fault, s⟩

/-- The document that is finished at the end of an evaluation. -/
def Course.document (c : Course) : Except Fault Recording :=
  match c.fault with
  | some fault => .error fault
  | none => c.state.recorder.finish.map (·.1)

def document (body : List Expr) : Except Fault Recording :=
  (course Evaluation.new body).document

end Expr

end HtmlTape
