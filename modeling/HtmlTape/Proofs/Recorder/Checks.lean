import HtmlTape.Proofs.Pull.Gathered
import HtmlTape.Proofs.Recorder.Followed
import HtmlTape.Proofs.Writer.Handled

/-!
# The checks of a recorder

A recorder refuses to close a void element that has children, and to finish a document with an
attribute outside of any element.  It looks its entries up in the words, one fragment deep; what
counts is what was recorded, with fragments looked through at any depth (`Item.expandedAll`).

* `Recorder.Mirrors.closeElement_iff`, `Recorder.Mirrors.finish_iff`: the checks of a recorder
  with levels are those on the items of the draft that it mirrors.
* `Recorder.Mirrors.closeElement_flat_iff`, `Recorder.Mirrors.finish_flat_iff`: those of the flat
  recorder are the same, and beyond them it only checks that the sizes are words.
* `FlatRecorder.checks_of_reaches`: so it is after every course of requests, and nothing that
  passes the checks is at fault later on, when it is compiled, played, read node by node or
  written.
-/

namespace HtmlTape

variable {τ σ : Type}

/-! ### Looking through fragments -/

mutual

/-- What an item stands for: itself, or all that its fragment stands for. -/
def Item.expanded : Item τ → List (Item τ)
  | .mark m => [.mark m]
  | .element name items => [.element name items]
  | .fragment items => Item.expandedAll items

def Item.expandedAll : List (Item τ) → List (Item τ)
  | [] => []
  | item :: rest => item.expanded ++ Item.expandedAll rest

end

def Item.isAttribute : Item τ → Bool
  | .mark m => m.isAttribute
  | .element .. | .fragment _ => false

theorem Item.expandedAll_mapAll (f : τ → σ) (items : List (Item τ)) :
    Item.expandedAll (Item.mapAll f items) = Item.mapAll f (Item.expandedAll items) := by
  induction items using Item.forest_induction with
  | nil => rfl
  | mark m rest ih => exact congrArg (List.cons _) ih
  | element name items rest _ ih => exact congrArg (List.cons _) ih
  | fragment items rest ih₁ ih₂ =>
    rw [Item.mapAll, Item.map, Item.expandedAll, Item.expanded, ih₁, ih₂, Item.expandedAll,
      Item.expanded, Item.mapAll_eq_map, Item.mapAll_eq_map, Item.mapAll_eq_map, List.map_append]

theorem Item.isAttribute_map (f : τ → σ) (item : Item τ) :
    (item.map f).isAttribute = item.isAttribute := by
  cases item with
  | mark m => cases m <;> rfl
  | element | fragment => rfl

theorem Draft.forall_expandedAll_map (f : τ → σ) (m : Draft τ) (p : Bool → Prop) :
    (∀ item ∈ Item.expandedAll (m.map f).current.items, p item.isAttribute) ↔
      ∀ item ∈ Item.expandedAll m.current.items, p item.isAttribute := by
  show (∀ item ∈ Item.expandedAll (m.current.items.map (Item.map f)), _) ↔ _
  rw [← Item.mapAll_eq_map, Item.expandedAll_mapAll, Item.mapAll_eq_map, List.forall_mem_map]
  simp only [Item.isAttribute_map]

/-- **References are marked as attributes where the items are attributes.** -/
theorem Shows.map_isAttribute {k : Stock} {limit : Nat} {refs : List Ref}
    {items : List (Item Quote)} (h : Shows k limit refs items) :
    refs.map Ref.isAttribute = (Item.expandedAll items).map Item.isAttribute := by
  induction h with
  | nil => rfl
  | mark _ _ _ _ ih => exact congrArg (List.cons _) ih
  | element _ _ _ _ _ _ ih => exact congrArg (List.cons _) ih
  | fragment _ _ ih₁ ih₂ =>
    rw [List.map_append, ih₁, ih₂, Item.expandedAll, List.map_append]
    rfl

theorem Shows.forall_isAttribute {k : Stock} {limit : Nat} {refs : List Ref}
    {items : List (Item Quote)} (h : Shows k limit refs items) (p : Bool → Prop) :
    (∀ ref ∈ refs, p ref.isAttribute) ↔
      ∀ item ∈ Item.expandedAll items, p item.isAttribute := by
  rw [← List.forall_mem_map (f := Ref.isAttribute) (P := p), h.map_isAttribute,
    List.forall_mem_map]

/-! ### The checks -/

theorem Stands.map_scope {names : Names} {levels : List Level} {sheets : List (Sheet Quote)}
    {k : Stock} (h : Stands names levels sheets k) :
    levels.map Level.scope = sheets.map Sheet.scope := by
  induction h with
  | nil => rfl
  | cons _ scope _ _ ih => rw [List.map_cons, List.map_cons, scope, ih]

namespace Recorder

variable {r : Recorder} {m : Draft Quote}

theorem Mirrors.map_scope (h : r.Mirrors m) :
    (r.current :: r.outer).map Level.scope = (m.current :: m.outer).map Sheet.scope := by
  obtain ⟨_, k, hk⟩ := h
  exact hk.map_scope

theorem Mirrors.scope_eq_root_iff (h : r.Mirrors m) :
    r.current.scope = .root ↔ r.outer = [] := by
  obtain ⟨_, k, hk⟩ := h
  cases hk with
  | cons _ _ root _ => exact root

theorem Mirrors.forall_refs (h : r.Mirrors m) (p : Bool → Prop) :
    (∀ ref ∈ r.current.refs, p ref.isAttribute) ↔
      ∀ item ∈ Item.expandedAll m.current.items, p item.isAttribute := by
  obtain ⟨_, k, hk⟩ := h
  cases hk with
  | cons _ _ _ holds => exact holds.shows_refs.forall_isAttribute p

/-- **The check on closing an element.** -/
theorem Mirrors.closeElement_iff (h : r.Mirrors m) :
    (∃ result, r.closeElement = .ok result) ↔ ∃ name, r.current.scope = .element name ∧
      (name.kind.isVoid → ∀ item ∈ Item.expandedAll m.current.items, item.isAttribute) := by
  have hrefs := h.forall_refs (· = true)
  constructor
  · rintro ⟨⟨o, r'⟩, hr⟩
    obtain ⟨name, _, _, hscope, _, hvoid, _⟩ := closeElement_eq_ok hr
    exact ⟨name, hscope, fun hv => hrefs.1 (hvoid hv)⟩
  · rintro ⟨name, hscope, hvoid⟩
    have hne : r.outer ≠ [] := by
      intro houter
      rw [h.scope_eq_root_iff.2 houter] at hscope
      cases hscope
    obtain ⟨parent, outer, houter⟩ := List.exists_cons_of_ne_nil hne
    have hallowed : ¬ (name.kind.isVoid ∧ r.current.refs.any (!·.isAttribute)) := by
      rintro ⟨hv, hany⟩
      obtain ⟨ref, href, hattr⟩ := List.any_eq_true.1 hany
      rw [hrefs.2 (hvoid hv) ref href] at hattr
      cases hattr
    rw [Recorder.closeElement, hscope, houter]
    simp only [if_neg hallowed]
    exact ⟨_, rfl⟩

/-- **The check on finishing a document.** -/
theorem Mirrors.finish_iff (h : r.Mirrors m) :
    (∃ result, r.finish = .ok result) ↔ r.outer = [] ∧
      ∀ item ∈ Item.expandedAll m.current.items, item.isAttribute = false := by
  rw [← h.forall_refs (· = false)]
  constructor
  · rintro ⟨⟨t, r'⟩, hr⟩
    obtain ⟨houter, hnodes, _⟩ := finish_eq_ok hr
    exact ⟨houter, hnodes⟩
  · rintro ⟨houter, hnodes⟩
    have hany : ¬ r.current.refs.any Ref.isAttribute = true := by
      rw [List.any_eq_true]
      rintro ⟨ref, href, hattr⟩
      rw [hnodes ref href] at hattr
      cases hattr
    rw [Recorder.finish, if_neg (not_not_intro houter)]
    simp only [if_neg hany]
    exact ⟨_, rfl⟩

end Recorder

/-! ### What passes the checks -/

/-- No reading of the document is at fault: it is played and read node by node to the end, with
the same events, and it can be written in every format to every sink. -/
structure Document.Faultless (d : Document) : Prop where
  read : ∃ events, d.events = .ok (.documentStart :: events ++ [.documentEnd]) ∧
    d.pullEvents = .ok events
  rendered : ∀ format, ∃ text, d.render format = .ok text
  written : ∀ (format : Format) {σ : Type} (sink : Sink σ) (s : σ),
    ∃ w, d.write format sink s = .ok w

theorem Document.Spells.faultless {d : Document} {forest : List (Tree Quote)}
    (h : d.Spells forest) : d.Faultless := by
  have hevents : d.events = .ok (.documentStart :: Tree.eventsAll d.names
      (Tree.mapAll Quote.text forest) ++ [.documentEnd]) := by
    rw [Document.events, h.bodyEvents]
    rfl
  refine ⟨⟨_, hevents, h.pullEvents⟩, fun format => ?_, fun format _ sink s => ?_⟩
  · rw [Document.render_eq, hevents]
    exact ⟨_, rfl⟩
  · rw [Document.write, hevents]
    exact ⟨_, rfl⟩

/-- A compilation that checks the spans of start tags fails where one of them is no word, and
comes to the same document otherwise. -/
theorem Recording.compileChecked_eq {t : Recording} {d : Document} (h : t.compile = .ok d) :
    ∃ code, t.instructions = .ok code ∧ d = t.withCode code ∧
      t.compileChecked =
        if code.all Instruction.spanFits then .ok d else .error .tooLarge := by
  obtain ⟨code, hcode, he⟩ := of_bind_eq_ok h
  cases he
  refine ⟨code, hcode, rfl, ?_⟩
  rw [compileChecked, hcode]
  rfl

namespace FlatRecorder

/-- The innermost level is an element which, if it is void, owns nothing but attributes. -/
def Closable (f : FlatRecorder) (draft : Draft String) : Prop :=
  ∃ name, f.current.scope = .element name ∧
    (name.kind.isVoid → ∀ item ∈ Item.expandedAll draft.current.items, item.isAttribute)

/-- No level is open, and no attribute is left outside of the elements. -/
def Finishable (f : FlatRecorder) (draft : Draft String) : Prop :=
  f.outer = [] ∧ ∀ item ∈ Item.expandedAll draft.current.items, item.isAttribute = false

/-- How many references the innermost level writes when it is closed. -/
def refCount (draft : Draft String) : Nat := (Item.expandedAll draft.current.items).length

/-- How many words the innermost element has when it is closed. -/
def extent (f : FlatRecorder) (draft : Draft String) : Nat :=
  f.words.size - f.current.start + refCount draft + 2

/-- There are offsets for closing the document. -/
def RootFits (f : FlatRecorder) (draft : Draft String) : Prop :=
  f.words.size ≤ lastWord ∧ refCount draft ≤ lastWord

/-- The recorder checks what the draft says.  Closing the innermost level and finishing the
document succeed where they may, unless the document is too large for it, and they say that it is
too large in no other case.  A document that is finished is never at fault afterwards, unless its
code is too large. -/
structure Checks (f : FlatRecorder) (draft : Draft String) : Prop where
  levels : (f.current :: f.outer).map FlatLevel.scope =
    (draft.current :: draft.outer).map Sheet.scope
  close : (∃ result, f.closeElement = .ok result) ↔
    f.Closable draft ∧ f.extent draft ≤ lastWord
  closeTooLarge : f.closeElement = .error .tooLarge ↔
    f.Closable draft ∧ lastWord < f.extent draft
  finish : (∃ result, f.finish = .ok result) ↔ f.Finishable draft ∧ f.RootFits draft
  finishTooLarge : f.finish = .error .tooLarge ↔ f.Finishable draft ∧ ¬ f.RootFits draft
  faultless : ∀ t f', f.finish = .ok (t, f') → ∃ code,
    t.instructions = .ok code ∧ (t.withCode code).Faultless ∧ t.compileChecked =
      if code.all Instruction.spanFits then .ok (t.withCode code) else .error .tooLarge

end FlatRecorder

namespace Recorder

variable {r : Recorder} {m : Draft Quote}

/-! ### Where a document is too large -/

theorem closeElement_ne_tooLarge (r : Recorder) : r.closeElement ≠ .error .tooLarge := by
  intro h
  rw [Recorder.closeElement] at h
  split at h
  · simp only at h
    split at h
    · rw [Names.elementText] at h
      split at h <;> cases h
    · cases h
  · cases h

theorem finish_ne_tooLarge (r : Recorder) : r.finish ≠ .error .tooLarge := by
  intro h
  rw [Recorder.finish] at h
  split at h
  · rw [innermostName] at h
    split at h
    · rw [Names.elementText] at h
      split at h <;> cases h
    · cases h
  · simp only at h
    split at h <;> cases h

theorem Mirrors.length_refs (h : r.Mirrors m) :
    r.current.refs.length = FlatRecorder.refCount (m.map Quote.text) := by
  obtain ⟨_, k, hk⟩ := h
  cases hk with
  | cons _ _ _ holds =>
    have hlength := congrArg List.length holds.shows_refs.map_isAttribute
    rw [List.length_map, List.length_map] at hlength
    rw [hlength, FlatRecorder.refCount]
    show _ = (Item.expandedAll (m.current.items.map (Item.map Quote.text))).length
    rw [← Item.mapAll_eq_map, Item.expandedAll_mapAll, Item.mapAll_eq_map, List.length_map]

theorem Mirrors.extent_eq (h : r.Mirrors m) {name : ElementName}
    (hscope : r.current.scope = .element name) :
    r.current.extent = r.flat.extent (m.map Quote.text) := by
  have hhere := h.flattens.here
  rw [Level.here, hscope] at hhere
  rw [Level.extent, FlatRecorder.extent, ← h.length_refs]
  show _ = r.words.size - r.current.start + _ + 2
  simp only [Scope.head, List.size_toArray, List.length_cons, List.length_nil] at hhere
  omega

theorem Mirrors.closable_iff (h : r.Mirrors m) :
    r.flat.Closable (m.map Quote.text) ↔ ∃ result, r.closeElement = .ok result := by
  rw [h.closeElement_iff, FlatRecorder.Closable]
  simp only [m.forall_expandedAll_map Quote.text (· = true)]
  rfl

theorem Mirrors.finishable_iff (h : r.Mirrors m) :
    r.flat.Finishable (m.map Quote.text) ↔ ∃ result, r.finish = .ok result := by
  rw [h.finish_iff, FlatRecorder.Finishable, m.forall_expandedAll_map Quote.text (· = false)]
  refine and_congr ?_ Iff.rfl
  show Level.flatAll r.outer = [] ↔ _
  rw [← List.length_eq_zero_iff, flatAll_length, List.length_eq_zero_iff]

/-- **The checks on closing an element, with its size.** -/
theorem Mirrors.closeElement_flat_iff (h : r.Mirrors m) :
    ((∃ result, r.flat.closeElement = .ok result) ↔ r.flat.Closable (m.map Quote.text) ∧
        r.flat.extent (m.map Quote.text) ≤ lastWord) ∧
      (r.flat.closeElement = .error .tooLarge ↔ r.flat.Closable (m.map Quote.text) ∧
        lastWord < r.flat.extent (m.map Quote.text)) := by
  rw [h.flattens.closeElement_flat, bind_checked_ok_iff,
    bind_checked_tooLarge_iff r.closeElement_ne_tooLarge, h.closable_iff, Nat.not_le]
  -- the size is that of an element, which the level is if it can be closed
  have hextent : (∃ result, r.closeElement = .ok result) →
      r.current.extent = r.flat.extent (m.map Quote.text) := fun hclose => by
    obtain ⟨name, hscope, _⟩ := h.closeElement_iff.1 hclose
    exact h.extent_eq hscope
  constructor
  · exact and_congr_right fun hclose => by rw [hextent hclose]
  · exact and_congr_right fun hclose => by rw [hextent hclose]

/-- **The checks on finishing a document, with its size.** -/
theorem Mirrors.finish_flat_iff (h : r.Mirrors m) :
    ((∃ result, r.flat.finish = .ok result) ↔ r.flat.Finishable (m.map Quote.text) ∧
        r.flat.RootFits (m.map Quote.text)) ∧
      (r.flat.finish = .error .tooLarge ↔ r.flat.Finishable (m.map Quote.text) ∧
        ¬ r.flat.RootFits (m.map Quote.text)) := by
  rw [h.flattens.finish_flat, bind_checked_ok_iff,
    bind_checked_tooLarge_iff r.finish_ne_tooLarge, h.finishable_iff, h.length_refs]
  exact ⟨Iff.rfl, Iff.rfl⟩

theorem map_scope_flatAll (levels : List Level) :
    (Level.flatAll levels).map FlatLevel.scope = levels.map Level.scope := by
  induction levels with
  | nil => rfl
  | cons level outer ih => exact congrArg (List.cons _) ih

end Recorder

/-- **The checks of a recorder are those on what was recorded**, after every course of requests,
and nothing that passes them is at fault later on. -/
theorem FlatRecorder.checks_of_reaches {calls : List SpelledCall} {f : FlatRecorder}
    (h : FlatRecorder.Reaches calls f) :
    ∃ draft, Draft.new.requestEach calls = some draft ∧ f.Checks draft := by
  obtain ⟨r, hr, rfl⟩ := h.exists_flat
  obtain ⟨m, hm, hcalls⟩ := hr.mirrors
  obtain ⟨hclose, hcloseTooLarge⟩ := hm.closeElement_flat_iff
  obtain ⟨hfinish, hfinishTooLarge⟩ := hm.finish_flat_iff
  refine ⟨m.map Quote.text, hcalls, ?_, hclose, hcloseTooLarge, hfinish, hfinishTooLarge, ?_⟩
  · refine (Recorder.map_scope_flatAll (r.current :: r.outer)).trans ?_
    rw [hm.map_scope, Draft.map, List.map_cons, List.map_cons, List.map_map]
    rfl
  · intro t f' hf
    obtain ⟨_, d, _, _, hcompile, _, hspells⟩ := (h.madeBy hf).compile
    obtain ⟨code, hcode, rfl, hchecked⟩ := Recording.compileChecked_eq hcompile
    exact ⟨code, hcode, hspells.faultless, hchecked⟩

/-- A void element with an attribute, and with a text in a fragment inside of a fragment. -/
def FlatRecorder.smugglingCalls : List SpelledCall :=
  [.openElement (.spelled "br"), .boolean (.spelled "hidden"), .beginFragment, .beginFragment,
    .text "x", .endFragment, .endFragment]

theorem FlatRecorder.smuggling_checks : ∃ f draft, FlatRecorder.Reaches smugglingCalls f ∧
    Draft.new.requestEach smugglingCalls = some draft ∧ f.Checks draft ∧
    ¬ ∃ result, f.closeElement = .ok result := by
  have hrefused : (FlatRecorder.new.requestEach smugglingCalls).toOption.map
      (fun result => result.2.closeElement.toOption.isSome) = some false := by decide +kernel
  obtain ⟨⟨answers, f⟩, hcalls, hclose⟩ := Option.map_eq_some_iff.1 hrefused
  have h : FlatRecorder.Reaches smugglingCalls f := ⟨answers, of_toOption_eq_some hcalls⟩
  obtain ⟨draft, hdraft, hchecks⟩ := FlatRecorder.checks_of_reaches h
  refine ⟨f, draft, h, hdraft, hchecks, ?_⟩
  rintro ⟨result, hr⟩
  simp only [hr] at hclose
  cases hclose

end HtmlTape
