import HtmlTape.Proofs.Draft.Machine

/-!
# Sound names

The codes of a document's names are places in one list of texts: the standard names and the names
of its own after them (`NameTable.texts`).  The names are sound if these texts are legal and differ
from each other.  Looking up a text either finds its place, or refuses it, or puts it at the end
(`NameTable.Gives`); so lookups keep names sound (`Names.path_sound`), and every course of requests
does (`Draft.names_sound`).  A code of sound names is told by its text (`Names.Sound.element_inj`).
-/

namespace HtmlTape

/-! ### Texts by their codes -/

/-- The texts of the standard names and of the names in a table, by their codes. -/
def NameTable.texts (standard : List String) (t : NameTable) : List String :=
  standard ++ t.names.toList

/-- The names in the table come after the standard ones, and all are legal and different. -/
structure NameTable.Sound (standard : List String) (t : NameTable) : Prop where
  base : t.base = standard.length
  nodup : (t.texts standard).Nodup
  legal : ∀ text ∈ t.texts standard, isLegalName text
  room : (t.texts standard).length ≤ lastCode + 1

def standardElementTexts : List String := standardElements.toList.map Prod.fst

def standardAttributeTexts : List String := standardAttributes.toList

namespace Names

def elementTexts (names : Names) : List String := names.elements.texts standardElementTexts

def attributeTexts (names : Names) : List String := names.attributes.texts standardAttributeTexts

structure Sound (names : Names) : Prop where
  elements : names.elements.Sound standardElementTexts
  attributes : names.attributes.Sound standardAttributeTexts

theorem sound_standard : Names.standard.Sound where
  elements :=
    { base := by decide +kernel
      nodup := by decide +kernel
      legal := by decide +kernel
      room := by decide +kernel }
  attributes :=
    { base := by decide +kernel
      nodup := by decide +kernel
      legal := by decide +kernel
      room := by decide +kernel }

end Names

namespace NameTable

variable {standard : List String} {t : NameTable} {code : Nat} {text : String}

theorem name?_eq (h : t.base = standard.length) (code : Nat) :
    (standard[code]?).or (t.name? code) = (t.texts standard)[code]? := by
  rw [texts, name?, h]
  by_cases hc : standard.length ≤ code
  · rw [if_pos hc, List.getElem?_append_right hc, List.getElem?_eq_none hc, Option.none_or,
      Array.getElem?_toList]
  · have hlt : code < standard.length := Nat.lt_of_not_le hc
    rw [if_neg hc, Option.or_none, List.getElem?_append_left hlt]

end NameTable

theorem Names.Sound.elementText?_eq {names : Names} (h : names.Sound) (name : ElementName) :
    names.elementText? name = names.elementTexts[name.code]? := by
  rw [elementTexts, ← NameTable.name?_eq h.elements.base, Names.elementText?,
    standardElementTexts, List.getElem?_map, Array.getElem?_toList]
  cases standardElements[name.code]? <;> rfl

theorem Names.Sound.attributeText?_eq {names : Names} (h : names.Sound) (name : AttributeName) :
    names.attributeText? name = names.attributeTexts[name.code]? := by
  rw [attributeTexts, ← NameTable.name?_eq h.attributes.base, Names.attributeText?,
    standardAttributeTexts, Array.getElem?_toList]
  cases standardAttributes[name.code]? <;> rfl

/-! ### What a lookup gives -/

/-- What looking up a text gives: its place, or no code and the reason why, or a new place at the
end of the texts. -/
inductive NameTable.Gives (standard : List String) (t : NameTable) (text : String) :
    Except NameError (Nat × NameTable) → Prop where
  | known {code : Nat} : (t.texts standard)[code]? = some text → Gives standard t text (.ok (code, t))
  | illegal : text ∉ t.texts standard → ¬ isLegalName text →
    Gives standard t text (.error (.invalid text))
  | full : text ∉ t.texts standard → isLegalName text → lastCode < (t.texts standard).length →
    Gives standard t text (.error .outOfCodes)
  | added : text ∉ t.texts standard → isLegalName text → (t.texts standard).length ≤ lastCode →
    Gives standard t text (.ok ((t.texts standard).length, { t with names := t.names.push text }))

namespace NameTable

variable {standard : List String} {t : NameTable} {text : String}

theorem texts_push (standard : List String) (t : NameTable) (text : String) :
    texts standard { t with names := t.names.push text } = t.texts standard ++ [text] := by
  rw [texts, texts, Array.toList_push, List.append_assoc]

theorem Sound.code_inj (h : t.Sound standard) {a b : Nat}
    (ha : (t.texts standard)[a]? = some text) (hb : (t.texts standard)[b]? = some text) : a = b :=
  (List.getElem?_inj (List.getElem?_eq_some_iff.1 ha).1 h.nodup).1 (ha.trans hb.symm)

theorem Sound.push (h : t.Sound standard) (hnew : text ∉ t.texts standard)
    (hlegal : isLegalName text) (hroom : (t.texts standard).length ≤ lastCode) :
    Sound standard { t with names := t.names.push text } := by
  refine ⟨h.base, ?_, ?_, ?_⟩
  · rw [texts_push, List.nodup_append]
    refine ⟨h.nodup, by simp, ?_⟩
    intro a ha b hb hab
    rw [List.mem_singleton.1 hb] at hab
    exact hnew (hab ▸ ha)
  · intro a ha
    rw [texts_push] at ha
    rcases List.mem_append.1 ha with ha | ha
    · exact h.legal a ha
    · rw [List.mem_singleton.1 ha]
      exact hlegal
  · rw [texts_push, List.length_append, List.length_singleton]
    exact Nat.succ_le_succ hroom

theorem Sound.intern_gives (h : t.Sound standard) (hstandard : text ∉ standard) :
    t.Gives standard text (t.intern text) := by
  have hlength : (t.texts standard).length = t.base + t.size := by
    rw [texts, List.length_append, h.base, size, ← Array.length_toList]
  rw [intern, code?]
  cases hfind : t.names.findIdx? (· == text) with
  | some i =>
    obtain ⟨hi, heq, _⟩ := Array.findIdx?_eq_some_iff_getElem.1 hfind
    refine .known ?_
    have hle : standard.length ≤ t.base + i := by
      rw [h.base]
      exact Nat.le_add_right _ _
    have hsub : t.base + i - standard.length = i := by
      rw [h.base, Nat.add_sub_cancel_left]
    rw [texts, List.getElem?_append_right hle, hsub, Array.getElem?_toList,
      Array.getElem?_eq_getElem hi, beq_iff_eq.1 heq]
  | none =>
    have hnew : text ∉ t.texts standard := by
      intro hmem
      rcases List.mem_append.1 hmem with hmem | hmem
      · exact hstandard hmem
      · have := Array.findIdx?_eq_none_iff.1 hfind text (Array.mem_toList_iff.1 hmem)
        simp at this
    simp only [Option.map_none]
    by_cases hlegal : isLegalName text
    · rw [hlegal, Bool.not_true, if_neg Bool.false_ne_true, ← hlength]
      by_cases hfull : lastCode < (t.texts standard).length
      · rw [if_pos hfull]
        exact .full hnew hlegal hfull
      · rw [if_neg hfull]
        exact .added hnew hlegal (Nat.le_of_not_lt hfull)
    · rw [Bool.not_eq_true] at hlegal
      rw [hlegal, Bool.not_false, if_pos rfl]
      exact .illegal hnew (by simp [hlegal])

/-- A text is searched among the standard ones first, and looked up in the table after that. -/
theorem Sound.search_gives (h : t.Sound standard) (text : String) :
    t.Gives standard text
      (match standard.findIdx? (· == text) with
        | some code => .ok (code, t)
        | none => t.intern text) := by
  cases hfind : standard.findIdx? (· == text) with
  | some i =>
    obtain ⟨hi, heq, _⟩ := List.findIdx?_eq_some_iff_getElem.1 hfind
    refine .known ?_
    rw [texts, List.getElem?_append_left hi, List.getElem?_eq_getElem hi, beq_iff_eq.1 heq]
  | none =>
    refine h.intern_gives fun hmem => ?_
    have := List.findIdx?_eq_none_iff.1 hfind text hmem
    simp at this

theorem Gives.sound (h : t.Sound standard) {code : Nat} {t' : NameTable}
    (hg : t.Gives standard text (.ok (code, t'))) :
    t'.Sound standard ∧ (t'.texts standard)[code]? = some text := by
  cases hg with
  | known hcode => exact ⟨h, hcode⟩
  | added hnew hlegal hroom =>
    refine ⟨h.push hnew hlegal hroom, ?_⟩
    rw [texts_push, List.getElem?_append_right (Nat.le_refl _), Nat.sub_self]
    rfl

/-- A text that gets a code is the only one that may be new. -/
theorem Gives.mem_texts {code : Nat} {t' : NameTable} (hg : t.Gives standard text (.ok (code, t')))
    (other : String) : other ∈ t'.texts standard ↔ other ∈ t.texts standard ∨ other = text := by
  cases hg with
  | known hcode =>
    refine ⟨.inl, ?_⟩
    rintro (hother | rfl)
    · exact hother
    · exact List.mem_of_getElem? hcode
  | added => rw [texts_push, List.mem_append, List.mem_singleton]

end NameTable

theorem notMem_of_isLegalName {text : String} (h : isLegalName text) : '\n' ∉ text.toList := by
  intro hmem
  rw [isLegalName, Bool.and_eq_true] at h
  have := List.all_eq_true.1 h.2 '\n' hmem
  revert this
  decide

namespace Names

variable {names names' : Names} {text : String}

theorem findIdx?_standardElementTexts (text : String) :
    standardElementTexts.findIdx? (· == text) = standardElements.findIdx? (·.1 == text) := by
  rw [standardElementTexts, List.findIdx?_map, ← List.findIdx?_toArray]
  rfl

theorem findIdx?_standardAttributeTexts (text : String) :
    standardAttributeTexts.findIdx? (· == text) = standardAttributes.findIdx? (· == text) := by
  rw [standardAttributeTexts, ← List.findIdx?_toArray]

/-- **Looking up an element gives its place in the texts**, an old one or a new one. -/
theorem Sound.internElement_gives (h : names.Sound) (text : String) :
    ∃ result, names.elements.Gives standardElementTexts text result ∧
      names.internElement text =
        result.map fun p => (⟨p.1⟩, { names with elements := p.2 }) := by
  refine ⟨_, h.elements.search_gives text, ?_⟩
  rw [internElement, standardElement?, findIdx?_standardElementTexts]
  cases standardElements.findIdx? (·.1 == text) with
  | some i => rfl
  | none => cases names.elements.intern text <;> rfl

theorem Sound.internAttribute_gives (h : names.Sound) (text : String) :
    ∃ result, names.attributes.Gives standardAttributeTexts text result ∧
      names.internAttribute text =
        result.map fun p => (⟨p.1⟩, { names with attributes := p.2 }) := by
  refine ⟨_, h.attributes.search_gives text, ?_⟩
  rw [internAttribute, standardAttribute?, findIdx?_standardAttributeTexts]
  cases standardAttributes.findIdx? (· == text) with
  | some i => rfl
  | none => cases names.attributes.intern text <;> rfl

theorem Sound.gives_of_internElement (h : names.Sound) {name : ElementName}
    (hi : names.internElement text = .ok (name, names')) :
    ∃ t, names' = { names with elements := t } ∧
      names.elements.Gives standardElementTexts text (.ok (name.code, t)) := by
  obtain ⟨result, hgives, heq⟩ := h.internElement_gives text
  obtain ⟨⟨code, t⟩, rfl, hcode⟩ := of_map_eq_ok (heq.symm.trans hi)
  cases hcode
  exact ⟨t, rfl, hgives⟩

theorem Sound.gives_of_internAttribute (h : names.Sound) {name : AttributeName}
    (hi : names.internAttribute text = .ok (name, names')) :
    ∃ t, names' = { names with attributes := t } ∧
      names.attributes.Gives standardAttributeTexts text (.ok (name.code, t)) := by
  obtain ⟨result, hgives, heq⟩ := h.internAttribute_gives text
  obtain ⟨⟨code, t⟩, rfl, hcode⟩ := of_map_eq_ok (heq.symm.trans hi)
  cases hcode
  exact ⟨t, rfl, hgives⟩

/-! ### What codes tell -/

/-- **A code is told by its text.** -/
theorem Sound.element_inj (h : names.Sound) {a b : ElementName}
    (ha : names.elementText? a = some text) (hb : names.elementText? b = some text) : a = b := by
  rw [h.elementText?_eq] at ha hb
  exact congrArg ElementName.mk (h.elements.code_inj ha hb)

theorem Sound.attribute_inj (h : names.Sound) {a b : AttributeName}
    (ha : names.attributeText? a = some text) (hb : names.attributeText? b = some text) :
    a = b := by
  rw [h.attributeText?_eq] at ha hb
  exact congrArg AttributeName.mk (h.attributes.code_inj ha hb)

theorem Sound.legal_element (h : names.Sound) {name : ElementName} {text : String}
    (ht : names.elementText? name = some text) : isLegalName text := by
  rw [h.elementText?_eq] at ht
  exact h.elements.legal text (List.mem_of_getElem? ht)

theorem Sound.legal_attribute (h : names.Sound) {name : AttributeName} {text : String}
    (ht : names.attributeText? name = some text) : isLegalName text := by
  rw [h.attributeText?_eq] at ht
  exact h.attributes.legal text (List.mem_of_getElem? ht)

theorem Sound.lineFeed_notMem_tag (h : names.Sound) (name : ElementName) :
    '\n' ∉ (names.tag name).toList := by
  rw [Names.tag]
  cases htext : names.elementText? name with
  | none => exact List.not_mem_nil
  | some text => exact notMem_of_isLegalName (h.legal_element htext)

theorem Sound.lineFeed_notMem_attr (h : names.Sound) (name : AttributeName) :
    '\n' ∉ (names.attr name).toList := by
  rw [Names.attr]
  cases htext : names.attributeText? name with
  | none => exact List.not_mem_nil
  | some text => exact notMem_of_isLegalName (h.legal_attribute htext)

end Names

/-! ### Names stay sound -/

namespace Names

variable {names names' : Names} {text : String}

theorem Sound.internElement (h : names.Sound) {name : ElementName}
    (hi : names.internElement text = .ok (name, names')) : names'.Sound := by
  obtain ⟨t, rfl, hgives⟩ := h.gives_of_internElement hi
  exact ⟨(hgives.sound h.elements).1, h.attributes⟩

theorem Sound.internAttribute (h : names.Sound) {name : AttributeName}
    (hi : names.internAttribute text = .ok (name, names')) : names'.Sound := by
  obtain ⟨t, rfl, hgives⟩ := h.gives_of_internAttribute hi
  exact ⟨h.elements, (hgives.sound h.attributes).1⟩

end Names

theorem Names.path_sound : Names.Path fun names names' => names.Sound → names'.Sound where
  refl _ h := h
  trans hab hbc ha := hbc (hab ha)
  element hi h := h.internElement hi
  attr hi h := h.internAttribute hi

namespace Draft

variable {m m' : Draft String} {R : Names → Names → Prop}

theorem enter_names {τ : Type} {m m' : Draft τ} {scope : Scope} {first : List (Item τ)}
    {count : Nat} (h : m.enter scope first count = some m') : m'.names = m.names := by
  rw [enter] at h
  split at h
  · cases h
  · cases h
    rfl

theorem endFragment_names {τ : Type} {m m' : Draft τ} (h : m.endFragment = some m') :
    m'.names = m.names := by
  rw [endFragment] at h
  split at h
  · cases h
    rfl
  · cases h

/-- A call leaves the names alone, or starts anew with the standard ones. -/
theorem step_names {call : Call ElementName AttributeName} (h : m.step call = some m') :
    m'.names = m.names ∨ m'.names = Names.standard := by
  cases call with
  | openElement name => exact .inl (enter_names h)
  | openWith name prepared args => exact .inl (enter_names h)
  | adopt name count => exact .inl (enter_names h)
  | beginFragment => exact .inl (enter_names h)
  | closeElement =>
    rw [step, closeElement] at h
    split at h
    · cases h
      exact .inl rfl
    · cases h
  | fragment args =>
    obtain ⟨inner, hinner, h⟩ := Option.bind_eq_some_iff.1 h
    exact .inl ((endFragment_names h).trans (enter_names hinner))
  | endFragment => exact .inl (endFragment_names h)
  | abortFragment =>
    rw [step, abortFragment] at h
    split at h
    · cases h
      exact .inl rfl
    · cases h
  | finish =>
    rw [step] at h
    split at h
    · cases h
      exact .inr rfl
    · cases h
  | reset =>
    cases h
    exact .inr rfl
  | _ =>
    cases h
    exact .inl rfl

theorem request_names (hpath : Names.Path R) {call : SpelledCall} (h : m.request call = some m') :
    R m.names m'.names ∨ m'.names = Names.standard := by
  have hmoves := hpath.call call { Recorder.new with names := m.names }
  rw [request] at h
  split at h
  · rename_i found r hrun
    rw [hrun] at hmoves
    refine (step_names h).imp (fun hnames => ?_) id
    rw [hnames]
    exact hmoves
  · rename_i e r hrun
    rw [hrun] at hmoves
    cases h
    exact .inl hmoves

/-- **Every course of requests leads from the standard names along lookups.** -/
theorem requestEach_names (hpath : Names.Path R) {calls : List SpelledCall}
    (h : new.requestEach calls = some m) : R Names.standard m.names := by
  have key : ∀ (calls : List SpelledCall) (m₀ : Draft String), R Names.standard m₀.names →
      m₀.requestEach calls = some m → R Names.standard m.names := by
    intro calls
    induction calls with
    | nil =>
      intro m₀ hm₀ h
      cases h
      exact hm₀
    | cons call calls ih =>
      intro m₀ hm₀ h
      rw [requestEach, List.foldlM_cons] at h
      obtain ⟨m₁, hcall, h⟩ := Option.bind_eq_some_iff.1 h
      refine ih m₁ ?_ h
      rcases request_names hpath hcall with hnames | hnames
      · exact hpath.trans hm₀ hnames
      · rw [hnames]
        exact hpath.refl _
  exact key calls new (hpath.refl _) h

/-- **The names are sound after every course of requests.** -/
theorem names_sound {calls : List SpelledCall} (h : new.requestEach calls = some m) :
    m.names.Sound := requestEach_names Names.path_sound h Names.sound_standard

end Draft

end HtmlTape
