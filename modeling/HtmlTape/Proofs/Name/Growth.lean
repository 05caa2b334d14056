import HtmlTape.Name.Basic

/-!
# Growth of the names

A name is read where its code has a text (`Names.elementText_eq_ok_iff`), and names are only ever
added: a code keeps its text when a further name is interned (`Names.extends_internElement`,
`Names.extends_internAttribute`).
-/

namespace HtmlTape

/-! ### Reading a code -/

namespace Names

variable {names : Names} {text : String}

theorem elementText_eq_ok_iff {name : ElementName} :
    names.elementText name = .ok text ↔ names.elementText? name = some text := by
  cases h : names.elementText? name <;> simp [elementText, h]

theorem attributeText_eq_ok_iff {name : AttributeName} :
    names.attributeText name = .ok text ↔ names.attributeText? name = some text := by
  cases h : names.attributeText? name <;> simp [attributeText, h]

theorem isSome_of_elementText {name : ElementName} (h : names.elementText name = .ok text) :
    (names.elementText? name).isSome := Option.isSome_of_eq_some (elementText_eq_ok_iff.1 h)

theorem isSome_of_attributeText {name : AttributeName} (h : names.attributeText name = .ok text) :
    (names.attributeText? name).isSome := Option.isSome_of_eq_some (attributeText_eq_ok_iff.1 h)

end Names

/-! ### Adding names -/

/-- Every code that has a text keeps it. -/
structure Names.Extends (names names' : Names) : Prop where
  element : ∀ name text, names.elementText? name = some text → names'.elementText? name = some text
  attr : ∀ name text, names.attributeText? name = some text → names'.attributeText? name = some text

theorem Names.Extends.refl (names : Names) : names.Extends names :=
  ⟨fun _ _ h => h, fun _ _ h => h⟩

theorem Names.Extends.trans {a b c : Names} (h : a.Extends b) (g : b.Extends c) : a.Extends c :=
  ⟨fun name text e => g.element name text (h.element name text e),
    fun name text e => g.attr name text (h.attr name text e)⟩

theorem Names.Extends.isSome_element {names names' : Names} (h : names.Extends names')
    {name : ElementName} (hs : (names.elementText? name).isSome) :
    (names'.elementText? name).isSome :=
  Option.isSome_iff_exists.2 ((Option.isSome_iff_exists.1 hs).imp (h.element name))

theorem Names.Extends.isSome_attr {names names' : Names} (h : names.Extends names')
    {name : AttributeName} (hs : (names.attributeText? name).isSome) :
    (names'.attributeText? name).isSome :=
  Option.isSome_iff_exists.2 ((Option.isSome_iff_exists.1 hs).imp (h.attr name))

theorem NameTable.name?_intern {t t' : NameTable} {name : String} {code : Nat}
    (h : t.intern name = .ok (code, t')) {c : Nat} {text : String} (hc : t.name? c = some text) :
    t'.name? c = some text := by
  rw [NameTable.intern] at h
  split at h
  · cases h; exact hc
  · split at h
    · cases h
    · split at h
      · cases h
      · cases h
        rw [NameTable.name?] at hc ⊢
        by_cases hb : t.base ≤ c
        · rw [if_pos hb] at hc ⊢
          have hlt : c - t.base < t.names.size := (Array.getElem?_eq_some_iff.1 hc).1
          rw [Array.getElem?_push_lt hlt, ← Array.getElem?_eq_getElem hlt]
          exact hc
        · rw [if_neg hb] at hc
          cases hc

theorem Names.extends_internElement {names names' : Names} {text : String} {name : ElementName}
    (h : names.internElement text = .ok (name, names')) : names.Extends names' := by
  rw [Names.internElement] at h
  split at h
  · cases h; exact .refl _
  · cases hi : names.elements.intern text with
    | error e => rw [hi] at h; cases h
    | ok result =>
      rw [hi] at h
      cases h
      refine ⟨fun name text e => ?_, fun _ _ e => e⟩
      rw [Names.elementText?] at e ⊢
      split at e
      · exact e
      · exact NameTable.name?_intern hi e

theorem Names.extends_internAttribute {names names' : Names} {text : String}
    {name : AttributeName} (h : names.internAttribute text = .ok (name, names')) :
    names.Extends names' := by
  rw [Names.internAttribute] at h
  split at h
  · cases h; exact .refl _
  · cases hi : names.attributes.intern text with
    | error e => rw [hi] at h; cases h
    | ok result =>
      rw [hi] at h
      cases h
      refine ⟨fun _ _ e => e, fun name text e => ?_⟩
      rw [Names.attributeText?] at e ⊢
      split at e
      · exact e
      · exact NameTable.name?_intern hi e

end HtmlTape
