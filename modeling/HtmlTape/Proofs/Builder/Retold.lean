import HtmlTape.Proofs.Builder.Styles
import HtmlTape.Proofs.Draft.Lookups
import HtmlTape.Proofs.Recorder.Traceless

/-!
# Drafts that are told again

Whatever calls a document was recorded by, it can be recorded again in order, as it stands there so
far: first its names are looked up, and then each open level is opened and its items are recorded
(`Draft.story`).  This is allowed because a recorder has let nothing through that is not proper
(`Recorder.Mirrors.proper`), so every draft of a recorder has such a course (`Draft.takes_story`).
-/

namespace HtmlTape

/-! ### Items as plans -/

mutual

/-- The plan for an item. -/
def Plan.ofItem : Item String → Plan
  | .mark m => .mark m
  | .element name items => .element name (Plan.ofItems items)
  | .fragment items => .fragment (Plan.ofItems items)

def Plan.ofItems : List (Item String) → List Plan
  | [] => []
  | item :: rest => Plan.ofItem item :: Plan.ofItems rest

end

theorem Plan.itemsAll_ofItems (items : List (Item String)) : itemsAll (ofItems items) = items := by
  induction items using Item.forest_induction with
  | nil => rfl
  | mark m rest ih => rw [ofItems, itemsAll, ih]; rfl
  | element name items rest ih₁ ih₂ =>
    rw [ofItems, itemsAll, ih₂, ofItem, Plan.items, ih₁]
    rfl
  | fragment items rest ih₁ ih₂ =>
    rw [ofItems, itemsAll, ih₂, ofItem, Plan.items, ih₁]
    rfl

/-- The names of the items are known, and void elements among them own attributes only. -/
def Item.ProperAll (names : Names) (items : List (Item String)) : Prop :=
  Plan.ProperAll names (Plan.ofItems items)

namespace Item.ProperAll

variable {names : Names} {items items' rest : List (Item String)}

theorem append_iff :
    ProperAll names (items ++ items') ↔ ProperAll names items ∧ ProperAll names items' := by
  induction items with
  | nil => exact (Iff.of_eq (true_and _)).symm
  | cons item rest ih => exact (and_congr_right' ih).trans and_assoc.symm

theorem mark_iff {m : Mark String} :
    ProperAll names (.mark m :: rest) ↔ m.Known names ∧ ProperAll names rest := Iff.rfl

theorem element_iff {name : ElementName} : ProperAll names (.element name items :: rest) ↔
    ((names.elementText? name).isSome ∧ ProperAll names items ∧
      (name.kind.isVoid → ∀ item ∈ expandedAll items, item.isAttribute)) ∧
    ProperAll names rest := by
  rw [ProperAll, Plan.ofItems, Plan.ProperAll, Plan.ofItem, Plan.Proper, Plan.itemsAll_ofItems]
  exact Iff.rfl

theorem fragment_iff : ProperAll names (.fragment items :: rest) ↔
    ProperAll names items ∧ ProperAll names rest := Iff.rfl

end Item.ProperAll

theorem Shows.properAll {names : Names} {k : Stock} (hknown : ∀ p ∈ k.records, p.2.Known names)
    {limit : Nat} {refs : List Ref} {items : List (Item Quote)} (h : Shows k limit refs items) :
    Item.ProperAll names (Item.mapAll Quote.text items) := by
  induction h with
  | nil => trivial
  | @mark _ o m refs items hmem _ _ _ ih =>
    refine Item.ProperAll.mark_iff.2 ⟨?_, ih⟩
    have hleaf := hknown _ hmem
    cases m with
    | text | raw | doctype => trivial
    | valued name q | boolean name => exact hleaf
  | @element _ o name blocks inner refs children items hmem _ hvoid inside _ ih₁ ih₂ =>
    refine Item.ProperAll.element_iff.2 ⟨⟨hknown _ hmem, ih₁, fun hv => ?_⟩, ih₂⟩
    rw [Item.expandedAll_mapAll, Item.mapAll_eq_map, List.forall_mem_map]
    simp only [Item.isAttribute_map]
    exact (inside.forall_isAttribute (· = true)).1 (hvoid hv)
  | fragment _ _ ih₁ ih₂ => exact Item.ProperAll.fragment_iff.2 ⟨ih₁, ih₂⟩

/-! ### Proper drafts -/

/-- The levels are proper, the innermost first: the outermost one is that of the document, and the
names of the others and of all items are known. -/
def Sheet.ProperAll (names : Names) : List (Sheet String) → Prop
  | [] => True
  | sheet :: outer => (sheet.scope = .root ↔ outer = []) ∧
    (∀ name, sheet.scope = .element name → (names.elementText? name).isSome) ∧
    Item.ProperAll names sheet.items ∧ Sheet.ProperAll names outer

def Draft.Proper (m : Draft String) : Prop := Sheet.ProperAll m.names (m.current :: m.outer)

theorem Stands.properAll {names : Names} {levels : List Level} {sheets : List (Sheet Quote)}
    {k : Stock} (h : Stands names levels sheets k) :
    Sheet.ProperAll names (sheets.map (Sheet.map Quote.text)) := by
  induction h with
  | nil => trivial
  | @cons level outer sheet sheets k blocks below scope root holds ih =>
    have hknown := (Stands.cons below scope root holds).known
    refine ⟨?_, ?_, ?_, ih⟩
    · have hlength := congrArg List.length below.map_scope
      rw [List.length_map, List.length_map] at hlength
      rw [List.map_eq_nil_iff, ← List.length_eq_zero_iff, ← hlength, List.length_eq_zero_iff,
        ← root, scope]
      exact Iff.rfl
    · rw [← show level.scope = (sheet.map Quote.text).scope from scope]
      exact holds.name
    · show Item.ProperAll names (sheet.items.map _)
      rw [← Item.mapAll_eq_map]
      exact holds.shows_refs.properAll hknown

/-- **The draft of a recorder is proper.** -/
theorem Recorder.Mirrors.proper {r : Recorder} {m : Draft Quote} (h : r.Mirrors m) :
    (m.map Quote.text).Proper := by
  obtain ⟨hnames, k, hk⟩ := h
  show Sheet.ProperAll m.names _
  rw [hnames]
  exact hk.properAll

/-! ### Recording in order -/

/-- The requests that record items in order. -/
def Item.requests (items : List (Item String)) : List SpelledCall :=
  (Plan.callsAll false (Plan.ofItems items)).map Call.coded

namespace Item

theorem requests_cons (item : Item String) (rest : List (Item String)) :
    requests (item :: rest) = requests [item] ++ requests rest := by
  rw [requests, Plan.ofItems, Plan.callsAll, List.map_append, requests, Plan.ofItems, Plan.ofItems,
    Plan.callsAll, Plan.callsAll, List.append_nil]
  rfl

theorem requests_element (name : ElementName) (items : List (Item String)) :
    requests [.element name items] =
      [.openElement (.coded name)] ++ requests items ++ [.closeElement] := by
  rw [requests, Plan.ofItems, Plan.ofItems, Plan.callsAll, Plan.callsAll, List.append_nil,
    Plan.ofItem, Plan.calls, Plan.callsAround, if_neg Bool.false_ne_true, List.map_append,
    List.map_append]
  rfl

theorem requests_fragment (items : List (Item String)) :
    requests [.fragment items] = [.beginFragment] ++ requests items ++ [.endFragment] := by
  rw [requests, Plan.ofItems, Plan.ofItems, Plan.callsAll, Plan.callsAll, List.append_nil,
    Plan.ofItem, Plan.calls, List.map_append, List.map_append]
  rfl

theorem startsOver_requests (items : List (Item String)) :
    ∀ call ∈ requests items, call.startsOver = false := by
  induction items using forest_induction with
  | nil => exact fun _ h => nomatch h
  | mark leaf rest ih =>
    rw [requests_cons, List.forall_mem_append]
    refine ⟨fun call hcall => ?_, ih⟩
    have hleaf : requests [.mark leaf] = [leaf.call.coded] := rfl
    rw [hleaf, List.mem_singleton] at hcall
    rw [hcall]
    cases leaf <;> rfl
  | element name items rest ih₁ ih₂ =>
    rw [requests_cons, requests_element, List.forall_mem_append, List.forall_mem_append,
      List.forall_mem_append, List.forall_mem_singleton, List.forall_mem_singleton]
    exact ⟨⟨⟨rfl, ih₁⟩, rfl⟩, ih₂⟩
  | fragment items rest ih₁ ih₂ =>
    rw [requests_cons, requests_fragment, List.forall_mem_append, List.forall_mem_append,
      List.forall_mem_append, List.forall_mem_singleton, List.forall_mem_singleton]
    exact ⟨⟨⟨rfl, ih₁⟩, rfl⟩, ih₂⟩

end Item

namespace Draft

theorem enter_zero (m : Draft String) (scope : Scope) :
    m.enter scope [] 0 = some ⟨⟨scope, []⟩, m.current :: m.outer, m.names⟩ := by
  rw [enter, if_neg (Nat.not_lt_zero _), Sheet.taken, Sheet.keep, Nat.sub_zero, List.drop_length,
    List.take_length]
  rfl

theorem takes_openElement {m : Draft String} {name : ElementName}
    (hname : (m.names.elementText? name).isSome) : m.Takes [.openElement (.coded name)]
      ⟨⟨.element name, []⟩, m.current :: m.outer, m.names⟩ :=
  takes_coded (.openElement name) hname (m.enter_zero _)

theorem takes_beginFragment (m : Draft String) :
    m.Takes [.beginFragment] ⟨⟨.fragment, []⟩, m.current :: m.outer, m.names⟩ :=
  takes_coded .beginFragment trivial (m.enter_zero _)

theorem Takes.append_items {m : Draft String} {calls calls' : List SpelledCall}
    {items items' : List (Item String)} (h : m.Takes calls (m.append items m.names))
    (h' : (m.append items m.names).Takes calls'
      ((m.append items m.names).append items' m.names)) :
    m.Takes (calls ++ calls') (m.append (items ++ items') m.names) := by
  rw [Draft.append, Draft.append, List.append_assoc] at h'
  exact h.append h'

/-- **Items that are proper can be recorded in order.** -/
theorem takes_requests (items : List (Item String)) : ∀ {m : Draft String},
    Item.ProperAll m.names items → m.Takes (Item.requests items) (m.append items m.names) := by
  induction items using Item.forest_induction with
  | nil =>
    intro m _
    rw [append, List.append_nil]
    exact .nil m
  | mark leaf rest ih =>
    intro m h
    obtain ⟨hleaf, hrest⟩ := Item.ProperAll.mark_iff.1 h
    have hfirst : m.Takes [leaf.call.coded] (m.append [.mark leaf] m.names) := by
      refine takes_coded leaf.call ?_ ?_
      · cases leaf with
        | text | raw | doctype => trivial
        | valued name value | boolean name => exact hleaf
      · cases leaf <;> rfl
    exact hfirst.append_items (ih hrest)
  | element name items rest ih₁ ih₂ =>
    intro m h
    obtain ⟨⟨hname, hitems, hvoid⟩, hrest⟩ := Item.ProperAll.element_iff.1 h
    have hinner := ih₁ (m := ⟨⟨.element name, []⟩, m.current :: m.outer, m.names⟩) hitems
    have hclose : Takes ⟨⟨.element name, items⟩, m.current :: m.outer, m.names⟩ [.closeElement]
        (m.append [.element name items] m.names) :=
      takes_coded .closeElement ⟨name, rfl, hvoid⟩ rfl
    rw [Item.requests_cons, Item.requests_element]
    exact (((takes_openElement hname).append hinner).append hclose).append_items (ih₂ hrest)
  | fragment items rest ih₁ ih₂ =>
    intro m h
    obtain ⟨hitems, hrest⟩ := Item.ProperAll.fragment_iff.1 h
    have hinner := ih₁ (m := ⟨⟨.fragment, []⟩, m.current :: m.outer, m.names⟩) hitems
    have hend : Takes ⟨⟨.fragment, items⟩, m.current :: m.outer, m.names⟩ [.endFragment]
        (m.append [.fragment items] m.names) :=
      takes_coded .endFragment rfl rfl
    rw [Item.requests_cons, Item.requests_fragment]
    exact (((takes_beginFragment m).append hinner).append hend).append_items (ih₂ hrest)

/-! ### Telling a draft again -/

def opening : Scope → List SpelledCall
  | .root => []
  | .element name => [.openElement (.coded name)]
  | .fragment => [.beginFragment]

/-- The requests that open the levels and record their items, the outermost level first. -/
def story : List (Sheet String) → List SpelledCall
  | [] => []
  | sheet :: outer => story outer ++ opening sheet.scope ++ Item.requests sheet.items

/-- **Levels that are proper can be told again.** -/
theorem takes_story (outer : List (Sheet String)) : ∀ {names : Names} {sheet : Sheet String},
    Proper ⟨sheet, outer, names⟩ → (blank names).Takes (story (sheet :: outer))
      ⟨sheet, outer, names⟩ := by
  induction outer with
  | nil =>
    intro names sheet h
    obtain ⟨hroot, _, hitems, _⟩ := h
    obtain ⟨scope, items⟩ := sheet
    obtain rfl : scope = .root := hroot.2 rfl
    exact takes_requests (m := blank names) items hitems
  | cons parent outer ih =>
    intro names sheet h
    obtain ⟨hroot, hname, hitems, hparent⟩ := h
    obtain ⟨scope, items⟩ := sheet
    have hopen : Takes ⟨parent, outer, names⟩ (opening scope)
        ⟨⟨scope, []⟩, parent :: outer, names⟩ := by
      cases scope with
      | root => cases hroot.1 rfl
      | element name =>
        exact takes_openElement (m := ⟨parent, outer, names⟩) (hname name rfl)
      | fragment => exact takes_beginFragment ⟨parent, outer, names⟩
    have hinner := takes_requests (m := ⟨⟨scope, []⟩, parent :: outer, names⟩) items hitems
    exact ((ih hparent).append hopen).append hinner

/-- **Every draft that is proper has a course in order**, if its names can be looked up. -/
theorem exists_takes {m m' : Draft String} {calls : List SpelledCall}
    (hproper : m.Proper) (h : new.requestEach calls = some m') (hnames : m.names = m'.names) :
    ∃ calls, new.Takes calls m := by
  obtain ⟨lookups, hlookups⟩ := exists_lookups h
  rw [← hnames] at hlookups
  exact ⟨_, hlookups.append (takes_story m.outer hproper)⟩

end Draft

end HtmlTape
