import HtmlTape.Proofs.Name.Sound
import Mathlib.Data.List.Forall2
import Mathlib.Data.List.Perm.Subperm

/-!
# Names by other codes

Two documents may give different codes to the same names.  `Names.Covers` says that one has a code
for every text that the other has one for; codes are the same name if they have the same text
(`Names.SameElement`, `Names.SameAttribute`), and then their elements are of the same kind
(`SameElement.kind_eq`).

Two calls are alike if they differ by the codes of the same names alone (`Call.Alike`).  Looking up
the names of two spelled calls that are alike gives calls that are alike, or refuses both for the
same reason, unless the document with more names has no code left (`Lookup.call_twin`).
-/

namespace HtmlTape

/-! ### Tables -/

namespace NameTable

/-- Every text of the table `t'` is one of `t`. -/
structure Covers (standard : List String) (t t' : NameTable) : Prop where
  sound : t.Sound standard
  sound' : t'.Sound standard
  texts : ∀ text ∈ t'.texts standard, text ∈ t.texts standard

/-- The codes have the same text in both tables. -/
def SameCode (standard : List String) (t t' : NameTable) (code code' : Nat) : Prop :=
  ∃ text, (t.texts standard)[code]? = some text ∧ (t'.texts standard)[code']? = some text

/-- How a text is looked up in two tables: both give it a code, or both refuse it, or the first
table is full. -/
inductive Pairs (standard : List String) : Except NameError (Nat × NameTable) →
    Except NameError (Nat × NameTable) → Prop where
  | found {code code' : Nat} {t t' : NameTable} : Covers standard t t' →
    SameCode standard t t' code code' → Pairs standard (.ok (code, t)) (.ok (code', t'))
  | refused (e : NameError) : Pairs standard (.error e) (.error e)
  | full (result : Except NameError (Nat × NameTable)) :
    Pairs standard (.error .outOfCodes) result

variable {standard : List String} {t t' : NameTable} {text : String}

theorem Covers.found (h : Covers standard t t') {code code' : Nat} {u u' : NameTable}
    (hgives : t.Gives standard text (.ok (code, u)))
    (hgives' : t'.Gives standard text (.ok (code', u'))) :
    Pairs standard (.ok (code, u)) (.ok (code', u')) := by
  obtain ⟨hsound, hcode⟩ := hgives.sound h.sound
  obtain ⟨hsound', hcode'⟩ := hgives'.sound h.sound'
  refine .found ⟨hsound, hsound', fun other hother => ?_⟩ ⟨text, hcode, hcode'⟩
  rw [hgives.mem_texts]
  exact ((hgives'.mem_texts other).1 hother).imp_left (h.texts other)

/-- A table has a code left for a text that it lacks if a table of more texts has a code for it. -/
theorem Covers.hasRoom (h : Covers standard t t') {code : Nat} {u : NameTable}
    (hgives : t.Gives standard text (.ok (code, u))) (hnew : text ∉ t'.texts standard) :
    (t'.texts standard).length ≤ lastCode := by
  have hsub : (text :: t'.texts standard).Subperm (u.texts standard) := by
    refine List.Nodup.subperm (List.nodup_cons.2 ⟨hnew, h.sound'.nodup⟩) fun other hother => ?_
    rw [hgives.mem_texts]
    exact (List.mem_cons.1 hother).symm.imp_left (h.texts other)
  exact Nat.le_of_succ_le_succ (Nat.le_trans hsub.length_le (hgives.sound h.sound).1.room)

/-- **A text is looked up alike in two tables**, unless the first one is full. -/
theorem Covers.pairs (h : Covers standard t t')
    {result result' : Except NameError (Nat × NameTable)}
    (hgives : t.Gives standard text result) (hgives' : t'.Gives standard text result') :
    Pairs standard result result' := by
  cases result with
  | error e =>
    cases hgives with
    | full _ _ _ => exact .full _
    | illegal hnew hlegal =>
      cases hgives' with
      | known hcode' => exact absurd (h.texts text (List.mem_of_getElem? hcode')) hnew
      | illegal _ _ => exact .refused _
      | full _ hlegal' _ => exact absurd hlegal' hlegal
      | added _ hlegal' _ => exact absurd hlegal' hlegal
  | ok found =>
    cases result' with
    | ok found' => exact h.found hgives hgives'
    | error e =>
      cases hgives' with
      | illegal _ hlegal =>
        obtain ⟨hsound, hcode⟩ := hgives.sound h.sound
        exact absurd (hsound.legal text (List.mem_of_getElem? hcode)) hlegal
      | full hnew _ hfull => exact absurd (h.hasRoom hgives hnew) (Nat.not_le_of_lt hfull)

end NameTable

/-! ### Names -/

namespace Names

/-- Every name of `names'` is one of `names`. -/
structure Covers (names names' : Names) : Prop where
  elements : NameTable.Covers standardElementTexts names.elements names'.elements
  attributes : NameTable.Covers standardAttributeTexts names.attributes names'.attributes

def SameElement (names names' : Names) (name name' : ElementName) : Prop :=
  ∃ text, names.elementText? name = some text ∧ names'.elementText? name' = some text

def SameAttribute (names names' : Names) (name name' : AttributeName) : Prop :=
  ∃ text, names.attributeText? name = some text ∧ names'.attributeText? name' = some text

variable {names names' wider wider' : Names}

theorem Covers.sound (h : names.Covers names') : names.Sound :=
  ⟨h.elements.sound, h.attributes.sound⟩

theorem Covers.sound' (h : names.Covers names') : names'.Sound :=
  ⟨h.elements.sound', h.attributes.sound'⟩

theorem Extends.covers (h : names'.Extends names) (hsound : names.Sound) (hsound' : names'.Sound) :
    names.Covers names' := by
  refine ⟨⟨hsound.elements, hsound'.elements, ?_⟩, ⟨hsound.attributes, hsound'.attributes, ?_⟩⟩
  · intro text hmem
    obtain ⟨code, hcode⟩ := List.mem_iff_getElem?.1 hmem
    have htext := h.element ⟨code⟩ text ((hsound'.elementText?_eq ⟨code⟩).trans hcode)
    rw [hsound.elementText?_eq] at htext
    exact List.mem_of_getElem? htext
  · intro text hmem
    obtain ⟨code, hcode⟩ := List.mem_iff_getElem?.1 hmem
    have htext := h.attr ⟨code⟩ text ((hsound'.attributeText?_eq ⟨code⟩).trans hcode)
    rw [hsound.attributeText?_eq] at htext
    exact List.mem_of_getElem? htext

theorem SameElement.mono {name name' : ElementName} (h : names.SameElement names' name name')
    (hn : names.Extends wider) (hn' : names'.Extends wider') :
    wider.SameElement wider' name name' :=
  h.imp fun text => .imp (hn.element name text) (hn'.element name' text)

theorem SameAttribute.mono {name name' : AttributeName}
    (h : names.SameAttribute names' name name') (hn : names.Extends wider)
    (hn' : names'.Extends wider') : wider.SameAttribute wider' name name' :=
  h.imp fun text => .imp (hn.attr name text) (hn'.attr name' text)

theorem Covers.sameElement (h : names.Covers names') {code code' : Nat}
    (hcode : NameTable.SameCode standardElementTexts names.elements names'.elements code code') :
    names.SameElement names' ⟨code⟩ ⟨code'⟩ :=
  hcode.imp fun _ => .imp (h.sound.elementText?_eq _).trans (h.sound'.elementText?_eq _).trans

theorem Covers.sameAttribute (h : names.Covers names') {code code' : Nat}
    (hcode : NameTable.SameCode standardAttributeTexts names.attributes names'.attributes code
      code') : names.SameAttribute names' ⟨code⟩ ⟨code'⟩ :=
  hcode.imp fun _ => .imp (h.sound.attributeText?_eq _).trans (h.sound'.attributeText?_eq _).trans

/-- A standard code is the same name in all documents, and only it is. -/
theorem SameElement.eq_of_standard (h : names.Covers names') {name name' : ElementName}
    (hname : names.SameElement names' name name')
    (hstandard : name.code < standardElementTexts.length ∨
      name'.code < standardElementTexts.length) : name = name' := by
  obtain ⟨text, ht, ht'⟩ := hname
  rcases hstandard with hlt | hlt
  · refine h.sound'.element_inj ?_ ht'
    rw [h.sound.elementText?_eq, elementTexts, NameTable.texts,
      List.getElem?_append_left hlt] at ht
    rw [h.sound'.elementText?_eq, elementTexts, NameTable.texts, List.getElem?_append_left hlt, ht]
  · refine h.sound.element_inj ht ?_
    rw [h.sound'.elementText?_eq, elementTexts, NameTable.texts,
      List.getElem?_append_left hlt] at ht'
    rw [h.sound.elementText?_eq, elementTexts, NameTable.texts, List.getElem?_append_left hlt, ht']

/-- **Elements of the same name are of the same kind.** -/
theorem SameElement.kind_eq (h : names.Covers names') {name name' : ElementName}
    (hname : names.SameElement names' name name') : name.kind = name'.kind := by
  by_cases hstandard : name.code < standardElementTexts.length ∨
      name'.code < standardElementTexts.length
  · rw [hname.eq_of_standard h hstandard]
  · have hsize : standardElementTexts.length = standardElements.size := by
      rw [standardElementTexts, List.length_map, Array.length_toList]
    rw [not_or, Nat.not_lt, Nat.not_lt, hsize] at hstandard
    rw [ElementName.kind, ElementName.kind, Array.getElem?_eq_none hstandard.1,
      Array.getElem?_eq_none hstandard.2]

/-- How a name is looked up in two documents: both give it a code, or both refuse it, or the first
one has no code left. -/
inductive Pairs {α : Type} (R : Names → Names → α → α → Prop) : Except NameError (α × Names) →
    Except NameError (α × Names) → Prop where
  | found {a b : α} {names names' : Names} : names.Covers names' → R names names' a b →
    Pairs R (.ok (a, names)) (.ok (b, names'))
  | refused (e : NameError) : Pairs R (.error e) (.error e)
  | full (result : Except NameError (α × Names)) : Pairs R (.error .outOfCodes) result

theorem Pairs.of_tables {α : Type} {R : Names → Names → α → α → Prop} {standard : List String}
    {f f' : Nat × NameTable → α × Names} {result result' : Except NameError (Nat × NameTable)}
    (h : NameTable.Pairs standard result result')
    (hfound : ∀ code code' t t', NameTable.Covers standard t t' →
      NameTable.SameCode standard t t' code code' →
        Pairs R (.ok (f (code, t))) (.ok (f' (code', t')))) :
    Pairs R (result.map f) (result'.map f') := by
  cases h with
  | found hcovers hcode => exact hfound _ _ _ _ hcovers hcode
  | refused e => exact .refused e
  | full result => exact .full _

/-- **An element is looked up alike in two documents**, unless the first one is full. -/
theorem Covers.internElement (h : names.Covers names') (text : String) :
    Pairs SameElement (names.internElement text) (names'.internElement text) := by
  obtain ⟨result, hgives, heq⟩ := h.sound.internElement_gives text
  obtain ⟨result', hgives', heq'⟩ := h.sound'.internElement_gives text
  rw [heq, heq']
  refine .of_tables (h.elements.pairs hgives hgives') fun _ _ t t' hcovers hcode => ?_
  have hnames : Covers { names with elements := t } { names' with elements := t' } :=
    ⟨hcovers, h.attributes⟩
  exact .found hnames (hnames.sameElement hcode)

theorem Covers.internAttribute (h : names.Covers names') (text : String) :
    Pairs SameAttribute (names.internAttribute text) (names'.internAttribute text) := by
  obtain ⟨result, hgives, heq⟩ := h.sound.internAttribute_gives text
  obtain ⟨result', hgives', heq'⟩ := h.sound'.internAttribute_gives text
  rw [heq, heq']
  refine .of_tables (h.attributes.pairs hgives hgives') fun _ _ t t' hcovers hcode => ?_
  have hnames : Covers { names with attributes := t } { names' with attributes := t' } :=
    ⟨h.elements, hcovers⟩
  exact .found hnames (hnames.sameAttribute hcode)

end Names

/-! ### Calls that are alike -/

/-- The calls differ by their names alone, which are related. -/
inductive Call.Alike {E E' A A' : Type} (R : E → E' → Prop) (S : A → A' → Prop) :
    Call E A → Call E' A' → Prop where
  | text (value : String) : Alike R S (.text value) (.text value)
  | raw (value : String) : Alike R S (.raw value) (.raw value)
  | doctype : Alike R S .doctype .doctype
  | valued {name : A} {name' : A'} (value : String) : S name name' →
    Alike R S (.valued name value) (.valued name' value)
  | boolean {name : A} {name' : A'} : S name name' → Alike R S (.boolean name) (.boolean name')
  | openElement {name : E} {name' : E'} : R name name' →
    Alike R S (.openElement name) (.openElement name')
  | openWith {name : E} {name' : E'} {prepared : List (A × String)} {prepared' : List (A' × String)}
    (args : List Token) : R name name' →
    List.Forall₂ (fun p p' => S p.1 p'.1 ∧ p.2 = p'.2) prepared prepared' →
    Alike R S (.openWith name prepared args) (.openWith name' prepared' args)
  | adopt {name : E} {name' : E'} (count : Nat) : R name name' →
    Alike R S (.adopt name count) (.adopt name' count)
  | closeElement : Alike R S .closeElement .closeElement
  | beginFragment : Alike R S .beginFragment .beginFragment
  | fragment (args : List Token) : Alike R S (.fragment args) (.fragment args)
  | endFragment : Alike R S .endFragment .endFragment
  | abortFragment : Alike R S .abortFragment .abortFragment
  | finish : Alike R S .finish .finish
  | reset : Alike R S .reset .reset
  | nextId : Alike R S .nextId .nextId
  | internElement {name : E} {name' : E'} : R name name' →
    Alike R S (.internElement name) (.internElement name')
  | internAttribute {name : A} {name' : A'} : S name name' →
    Alike R S (.internAttribute name) (.internAttribute name')

/-- The names are spelled alike, or given by codes that are related. -/
inductive Spelling.Alike {α : Type} (R : α → α → Prop) : Spelling α → Spelling α → Prop where
  | spelled (text : String) : Alike R (.spelled text) (.spelled text)
  | coded {name name' : α} : R name name' → Alike R (.coded name) (.coded name')

theorem Call.Alike.imp {E E' A A' : Type} {R R' : E → E' → Prop} {S S' : A → A' → Prop}
    (hR : ∀ name name', R name name' → R' name name')
    (hS : ∀ name name', S name name' → S' name name') {c : Call E A} {c' : Call E' A'}
    (h : Alike R S c c') : Alike R' S' c c' := by
  cases h with
  | text value => exact .text value
  | raw value => exact .raw value
  | doctype => exact .doctype
  | valued value hname => exact .valued value (hS _ _ hname)
  | boolean hname => exact .boolean (hS _ _ hname)
  | openElement hname => exact .openElement (hR _ _ hname)
  | openWith args hname hprepared =>
    exact .openWith args (hR _ _ hname) (hprepared.imp fun _ _ h => ⟨hS _ _ h.1, h.2⟩)
  | adopt count hname => exact .adopt count (hR _ _ hname)
  | closeElement => exact .closeElement
  | beginFragment => exact .beginFragment
  | fragment args => exact .fragment args
  | endFragment => exact .endFragment
  | abortFragment => exact .abortFragment
  | finish => exact .finish
  | reset => exact .reset
  | nextId => exact .nextId
  | internElement hname => exact .internElement (hR _ _ hname)
  | internAttribute hname => exact .internAttribute (hS _ _ hname)

theorem Spelling.Alike.imp {α : Type} {R R' : α → α → Prop}
    (hR : ∀ name name', R name name' → R' name name') {name name' : Spelling α}
    (h : name.Alike R name') : name.Alike R' name' := by
  cases h with
  | spelled text => exact .spelled text
  | coded hname => exact .coded (hR _ _ hname)

/-- The calls are the same but for the codes of the same names. -/
def Names.SameCall (names names' : Names) :
    Call ElementName AttributeName → Call ElementName AttributeName → Prop :=
  Call.Alike (names.SameElement names') (names.SameAttribute names')

def Names.SameRequest (names names' : Names) : SpelledCall → SpelledCall → Prop :=
  Call.Alike (Spelling.Alike (names.SameElement names'))
    (Spelling.Alike (names.SameAttribute names'))

theorem Names.SameRequest.mono {names names' wider wider' : Names} {c c' : SpelledCall}
    (h : names.SameRequest names' c c') (hn : names.Extends wider) (hn' : names'.Extends wider') :
    wider.SameRequest wider' c c' :=
  h.imp (fun _ _ h => h.imp fun _ _ hname => hname.mono hn hn')
    fun _ _ h => h.imp fun _ _ hname => hname.mono hn hn'

/-! ### Lookups -/

namespace Lookup

variable {α β : Type}

/-- How two lookups end: both find something, and what they find is related; or both are refused;
or the first one is refused because no code is left. -/
inductive Ends (R : Names → Names → α → α → Prop) (names names' : Names) :
    Except NameError α × Recorder → Except NameError α × Recorder → Prop where
  | found {r r' : Recorder} {a b : α} : r.names.Covers r'.names → names.Extends r.names →
    names'.Extends r'.names → R r.names r'.names a b → Ends R names names' (.ok a, r) (.ok b, r')
  | refused {r r' : Recorder} (e : NameError) : r.names.Covers r'.names → names.Extends r.names →
    names'.Extends r'.names → Ends R names names' (.error e, r) (.error e, r')
  | full (r : Recorder) (result : Except NameError α × Recorder) :
    Ends R names names' (.error .outOfCodes, r) result

/-- The lookups end alike wherever the names have grown from `names` and `names'`. -/
def Twin (R : Names → Names → α → α → Prop) (names names' : Names) (x y : Lookup α) : Prop :=
  ∀ r r' : Recorder, names.Extends r.names → names'.Extends r'.names → r.names.Covers r'.names →
    Ends R r.names r'.names (x.run r) (y.run r')

/-- What is related stays related when names are added. -/
def Stable (R : Names → Names → α → α → Prop) : Prop :=
  ∀ ⦃names names' wider wider' : Names⦄ ⦃a b : α⦄, R names names' a b → names.Extends wider →
    names'.Extends wider' → R wider wider' a b

variable {R : Names → Names → α → α → Prop} {S : Names → Names → β → β → Prop}
  {names names' : Names}

theorem Ends.trans {mid mid' : Names} {x y : Except NameError α × Recorder}
    (h : Ends R mid mid' x y) (hn : names.Extends mid) (hn' : names'.Extends mid') :
    Ends R names names' x y := by
  cases h with
  | found hcovers he he' hR => exact .found hcovers (hn.trans he) (hn'.trans he') hR
  | refused e hcovers he he' => exact .refused e hcovers (hn.trans he) (hn'.trans he')
  | full r => exact .full r _

theorem twin_pure (hR : Stable R) {a b : α} (h : R names names' a b) :
    Twin R names names' (pure a) (pure b) :=
  fun _ _ hn hn' hcovers => .found hcovers (.refl _) (.refl _) (hR h hn hn')

theorem Twin.bind {x y : Lookup α} {f g : α → Lookup β} (h : Twin R names names' x y)
    (hfg : ∀ {mid mid' : Names} {a b : α}, names.Extends mid → names'.Extends mid' →
      R mid mid' a b → Twin S mid mid' (f a) (g b)) :
    Twin S names names' (x >>= f) (y >>= g) := by
  intro r r' hn hn' hcovers
  have hends := h r r' hn hn' hcovers
  cases hx : x.run r with
  | mk result s =>
    cases hy : y.run r' with
    | mk result' s' =>
      rw [hx, hy] at hends
      cases hends with
      | @found _ _ a b hcovers he he' hR =>
        rw [run_bind_ok f hx, run_bind_ok g hy]
        exact (hfg (hn.trans he) (hn'.trans he') hR s s' (.refl _) (.refl _) hcovers).trans he he'
      | refused e hcovers he he' =>
        rw [run_bind_error f hx, run_bind_error g hy]
        exact .refused e hcovers he he'
      | full =>
        rw [run_bind_error f hx]
        exact .full _ _

theorem Twin.map {x y : Lookup α} (h : Twin R names names' x y) (hS : Stable S) {f g : α → β}
    (hfg : ∀ {mid mid' : Names} {a b : α}, R mid mid' a b → S mid mid' (f a) (g b)) :
    Twin S names names' (f <$> x) (g <$> y) := by
  rw [map_eq_pure_bind, map_eq_pure_bind]
  exact h.bind fun _ _ hR => twin_pure hS (hfg hR)

theorem Stable.forall₂ (hR : Stable R) :
    Stable fun names names' : Names => List.Forall₂ (R names names') :=
  fun _ _ _ _ _ _ h hn hn' => h.imp fun _ _ h => hR h hn hn'

theorem Twin.mono {wider wider' : Names} {x y : Lookup α} (h : Twin R names names' x y)
    (hn : names.Extends wider) (hn' : names'.Extends wider') : Twin R wider wider' x y :=
  fun r r' he he' hcovers => h r r' (hn.trans he) (hn'.trans he') hcovers

theorem Twin.mapM (hS : Stable S) {f : α → Lookup β} {as bs : List α}
    (h : List.Forall₂ (fun a b => Twin S names names' (f a) (f b)) as bs) :
    Twin (fun names names' => List.Forall₂ (S names names')) names names'
      (as.mapM f) (bs.mapM f) := by
  induction h with
  | nil =>
    rw [List.mapM_nil]
    exact twin_pure hS.forall₂ .nil
  | @cons a b as bs hab _ ih =>
    rw [List.mapM_cons, List.mapM_cons]
    refine hab.bind fun hn hn' hS₁ => ?_
    refine (ih.mono hn hn').bind fun he he' hrest => ?_
    exact twin_pure hS.forall₂ (.cons (hS hS₁ he he') hrest)

theorem stable_sameElement : Stable Names.SameElement := fun _ _ _ _ _ _ h => h.mono

theorem stable_sameAttribute : Stable Names.SameAttribute := fun _ _ _ _ _ _ h => h.mono

/-- Spelled names are looked up alike if interning them gives pairs; codes are left as they are. -/
theorem of_twin {intern : Names → String → Except NameError (α × Names)} (hR : Stable R)
    (hextends : ∀ {names wider : Names} {text : String} {name : α},
      intern names text = .ok (name, wider) → names.Extends wider)
    (hpairs : ∀ {names names' : Names} (text : String), names.Covers names' →
      Names.Pairs R (intern names text) (intern names' text))
    {name name' : Spelling α} (h : name.Alike (R names names') name') :
    Twin R names names'
      (of (fun r text => (intern r.names text).map fun p => (p.1, { r with names := p.2 })) name)
      (of (fun r text => (intern r.names text).map fun p => (p.1, { r with names := p.2 }))
        name') := by
  cases h with
  | coded hname => exact twin_pure hR hname
  | spelled text =>
    intro r r' _ _ hcovers
    have h := hpairs text hcovers
    rw [run_of, run_of]
    cases hi : intern r.names text with
    | error e =>
      cases hi' : intern r'.names text with
      | error e' =>
        rw [hi, hi'] at h
        cases h with
        | refused => exact .refused e hcovers (.refl _) (.refl _)
        | full => exact .full _ _
      | ok result =>
        rw [hi, hi'] at h
        cases h with
        | full => exact .full _ _
    | ok result =>
      cases hi' : intern r'.names text with
      | error e =>
        rw [hi, hi'] at h
        cases h
      | ok result' =>
        rw [hi, hi'] at h
        cases h with
        | found hcovers' hname => exact .found hcovers' (hextends hi) (hextends hi') hname

theorem element_twin {name name' : Spelling ElementName}
    (h : name.Alike (names.SameElement names') name') :
    Twin Names.SameElement names names' (element name) (element name') :=
  of_twin stable_sameElement Names.extends_internElement (fun text h => h.internElement text) h

theorem attr_twin {name name' : Spelling AttributeName}
    (h : name.Alike (names.SameAttribute names') name') :
    Twin Names.SameAttribute names names' (attr name) (attr name') :=
  of_twin stable_sameAttribute Names.extends_internAttribute (fun text h => h.internAttribute text) h

theorem stable_prepared : Stable fun (names names' : Names) (p p' : AttributeName × String) =>
    names.SameAttribute names' p.1 p'.1 ∧ p.2 = p'.2 :=
  fun _ _ _ _ _ _ h hn hn' => ⟨h.1.mono hn hn', h.2⟩

theorem stable_sameCall : Stable Names.SameCall := fun _ _ _ _ _ _ h hn hn' =>
  h.imp (fun _ _ hname => hname.mono hn hn') fun _ _ hname => hname.mono hn hn'

/-- **The names of calls that are alike are looked up alike.** -/
theorem call_twin {c c' : SpelledCall} (h : names.SameRequest names' c c') :
    Twin Names.SameCall names names' (call c) (call c') := by
  cases h with
  | text value => exact twin_pure stable_sameCall (.text value)
  | raw value => exact twin_pure stable_sameCall (.raw value)
  | doctype => exact twin_pure stable_sameCall .doctype
  | valued value hname =>
    exact (attr_twin hname).map stable_sameCall fun h => .valued value h
  | boolean hname => exact (attr_twin hname).map stable_sameCall fun h => .boolean h
  | openElement hname => exact (element_twin hname).map stable_sameCall fun h => .openElement h
  | openWith args hname hprepared =>
    refine (element_twin hname).bind fun hn hn' hname => ?_
    refine Twin.bind (Twin.mapM stable_prepared ?_) fun he he' hprepared =>
      twin_pure stable_sameCall (.openWith args (hname.mono he he') hprepared)
    refine hprepared.imp fun p p' h => ?_
    obtain ⟨name, value⟩ := p
    obtain ⟨name', value'⟩ := p'
    obtain ⟨hattr, hvalue⟩ := h
    cases hvalue
    exact ((attr_twin hattr).mono hn hn').map stable_prepared fun h => ⟨h, rfl⟩
  | adopt count hname => exact (element_twin hname).map stable_sameCall fun h => .adopt count h
  | closeElement => exact twin_pure stable_sameCall .closeElement
  | beginFragment => exact twin_pure stable_sameCall .beginFragment
  | fragment args => exact twin_pure stable_sameCall (.fragment args)
  | endFragment => exact twin_pure stable_sameCall .endFragment
  | abortFragment => exact twin_pure stable_sameCall .abortFragment
  | finish => exact twin_pure stable_sameCall .finish
  | reset => exact twin_pure stable_sameCall .reset
  | nextId => exact twin_pure stable_sameCall .nextId
  | internElement hname => exact (element_twin hname).map stable_sameCall fun h => .internElement h
  | internAttribute hname =>
    exact (attr_twin hname).map stable_sameCall fun h => .internAttribute h

end Lookup

end HtmlTape
