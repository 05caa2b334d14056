import HtmlTape.Proofs.Code.Branch

/-!
# Values in the tags of their owners

The attributes of an element are gathered by name, so a value may stand far from where it was
recorded.  In the code of branches each value stands in the start tag of the element that owns its
record, behind the name of the attribute (`Attributed`), and gathering keeps all values
(`Group.perm_values`).
-/

namespace HtmlTape

namespace Instruction

def isValue : Instruction → Bool
  | firstValue _ | nextValue _ => true
  | _ => false

def isAttribute : Instruction → Bool
  | attributeName _ | firstValue _ | nextValue _ | valueEnd => true
  | _ => false

/-- A part of a tag that is made from no record of its own. -/
def isPunctuation : Instruction → Bool
  | attributeName _ | valueEnd | startTagEnd _ | voidEnd | endTag _ => true
  | doctype | startTag .. | firstValue _ | nextValue _ | text _ | raw _ => false

end Instruction

/-- The value stands in the start tag of the element that owns its record, and behind the name that
the record has. -/
def Sourced.InTag (records : List (Nat × Block)) (before : List Sourced) (s : Sourced) : Prop :=
  ∃ earlier tag values owner o name span attr l,
    before = earlier ++ ⟨.startTag name span, some owner⟩ :: tag ++
      ⟨.attributeName attr, none⟩ :: values ∧
    (∀ a ∈ tag, a.instruction.isAttribute) ∧ (∀ v ∈ values, v.instruction.isValue) ∧
    s.source = some o ∧ (o, Block.leaf (.valued attr l)) ∈ records ∧ Block.Owns records owner o

/-- Every value of an attribute stands in the start tag of the element that owns its record. -/
def Attributed (records : List (Nat × Block)) (code : List Sourced) : Prop :=
  ∀ before s after, code = before ++ s :: after → s.instruction.isValue → s.InTag records before

/-! ### Attributes -/

theorem flatMap_if_eq {α β : Type} [DecidableEq α] {a : α} {as : List α} (bs : List β)
    (ha : a ∈ as) (hnodup : as.Nodup) : (as.flatMap fun x => if a = x then bs else []) = bs := by
  induction as with
  | nil => cases ha
  | cons x as ih =>
    obtain ⟨hx, hnodup⟩ := List.nodup_cons.1 hnodup
    rw [List.flatMap_cons]
    by_cases hax : a = x
    · have hnone : (as.flatMap fun x => if a = x then bs else []) = [] := by
        refine List.flatMap_eq_nil_iff.2 fun y hy => if_neg ?_
        rintro rfl
        exact hx (hax ▸ hy)
      rw [if_pos hax, hnone, List.append_nil]
    · rw [if_neg hax, List.nil_append]
      exact ih ((List.mem_cons.1 ha).resolve_left hax) hnodup

/-- Looking for the values of one name after another finds all values, if every attribute has one of
the names. -/
theorem perm_flatMap_values {τ : Type} {names : List AttributeName} (hnodup : names.Nodup)
    (attributes : List (AttributeName × Option τ)) (hnames : ∀ a ∈ attributes, a.1 ∈ names) :
    (names.flatMap fun name => valuesOf name attributes).Perm
      (attributes.filterMap Prod.snd) := by
  induction attributes with
  | nil => simp [valuesOf]
  | cons a rest ih =>
    have hrest := ih fun b hb => hnames b (List.mem_cons_of_mem _ hb)
    have hfirst := flatMap_if_eq a.2.toList (hnames a List.mem_cons_self) hnodup
    have hsplit : ∀ name, valuesOf name (a :: rest) =
        (if a.1 = name then a.2.toList else []) ++ valuesOf name rest := fun name => by
      rw [valuesOf_cons, apply_ite Option.toList, Option.toList_none]
    have hall : (a :: rest).filterMap Prod.snd = a.2.toList ++ rest.filterMap Prod.snd := by
      rw [List.filterMap_cons]
      cases a.2 <;> rfl
    rw [List.flatMap_congr fun name _ => hsplit name, hall]
    refine (List.flatMap_append_perm names _ _).symm.trans ?_
    rw [hfirst]
    exact hrest.append_left _

/-- **Gathering attributes keeps their values**, each as often. -/
theorem Group.perm_values {τ : Type} (attributes : List (AttributeName × Option τ)) :
    ((gather attributes).flatMap Group.values).Perm (attributes.filterMap Prod.snd) := by
  rw [gather, List.flatMap_map]
  exact perm_flatMap_values (nodup_eraseDups _) attributes fun a ha =>
    List.mem_eraseDups.2 (List.mem_map_of_mem ha)

theorem Group.filterMap_source_code (g : Group (Nat × Literal)) :
    g.code.filterMap Sourced.source = g.values.map Prod.fst := by
  rw [Group.code]
  cases g.values with
  | nil => rfl
  | cons value values => simp [List.filterMap_map]

theorem Group.mem_code {g : Group (Nat × Literal)} {s : Sourced} (h : s ∈ g.code) :
    s.instruction.isAttribute ∧ ((s.source = none ∧ s.instruction.isPunctuation) ∨
      ∃ v ∈ g.values, s.source = some v.1 ∧
        (s.instruction = .firstValue v.2 ∨ s.instruction = .nextValue v.2)) := by
  rw [Group.code] at h
  rcases List.mem_cons.1 h with rfl | h
  · exact ⟨rfl, .inl ⟨rfl, rfl⟩⟩
  cases hvalues : g.values with
  | nil =>
    rw [hvalues] at h
    cases h
  | cons value values =>
    rw [hvalues] at h
    simp only [List.cons_append, List.mem_cons, List.mem_append, List.mem_map,
      List.not_mem_nil, or_false] at h
    rcases h with rfl | ⟨v, hv, rfl⟩ | rfl
    · exact ⟨rfl, .inr ⟨value, List.mem_cons_self, rfl, .inl rfl⟩⟩
    · exact ⟨rfl, .inr ⟨v, List.mem_cons_of_mem _ hv, rfl, .inr rfl⟩⟩
    · exact ⟨rfl, .inl ⟨rfl, rfl⟩⟩

/-- Before a value stand the name of the attribute and other values of it. -/
theorem Group.before_value {g : Group (Nat × Literal)} {before after : List Sourced}
    {s : Sourced} (h : g.code = before ++ s :: after) (hs : s.instruction.isValue) :
    ∃ values, before = ⟨.attributeName g.name, none⟩ :: values ∧
      ∀ v ∈ values, v.instruction.isValue := by
  rw [Group.code] at h
  cases before with
  | nil =>
    cases (List.cons.inj h).1
    cases hs
  | cons first values =>
    obtain ⟨hfirst, hrest⟩ := List.cons.inj h
    refine ⟨values, by rw [hfirst], fun v hv => ?_⟩
    cases hvalues : g.values with
    | nil =>
      rw [hvalues] at hrest
      exact absurd hrest (by simp)
    | cons value rest =>
      rw [hvalues] at hrest
      rcases List.append_eq_append_iff.1 hrest with ⟨more, _, hend⟩ | ⟨more, hall, _⟩
      · -- the value would be the end of the values
        cases more with
        | nil =>
          cases (List.cons.inj hend).1
          cases hs
        | cons m more => exact absurd (List.cons.inj hend).2 (by simp)
      · have hmem : v ∈ (⟨.firstValue value.2, some value.1⟩ : Sourced) ::
            rest.map fun v => ⟨.nextValue v.2, some v.1⟩ := by
          rw [hall]
          exact List.mem_append_left _ hv
        rcases List.mem_cons.1 hmem with rfl | hmem
        · rfl
        · obtain ⟨w, _, rfl⟩ := List.mem_map.1 hmem
          rfl

/-! ### Owners of values -/

/-- Where a member of joined rows stands in one of the rows. -/
theorem exists_of_flatMap_eq {α β : Type} {f : α → List β} {b : β} {after : List β}
    (as : List α) : ∀ {before : List β}, as.flatMap f = before ++ b :: after →
      ∃ as₁ a as₂ bs₁ bs₂, as = as₁ ++ a :: as₂ ∧ f a = bs₁ ++ b :: bs₂ ∧
        before = as₁.flatMap f ++ bs₁ := by
  induction as with
  | nil =>
    intro before h
    exact absurd h (by simp)
  | cons a as ih =>
    intro before h
    rw [List.flatMap_cons] at h
    rcases List.append_eq_append_iff.1 h with ⟨more, rfl, hrest⟩ | ⟨more, hfirst, hrest⟩
    · obtain ⟨as₁, a', as₂, bs₁, bs₂, rfl, hf, rfl⟩ := ih hrest
      exact ⟨a :: as₁, a', as₂, bs₁, bs₂, rfl, hf, by rw [List.flatMap_cons, List.append_assoc]⟩
    · cases more with
      | nil =>
        have hstart : as.flatMap f = [] ++ b :: after := hrest.symm
        obtain ⟨as₁, a', as₂, bs₁, bs₂, rfl, hf, hnil⟩ := ih hstart
        refine ⟨a :: as₁, a', as₂, bs₁, bs₂, rfl, hf, ?_⟩
        rw [List.flatMap_cons, List.append_assoc, ← hnil, hfirst, List.append_nil,
          List.append_nil]
      | cons b' more =>
        obtain ⟨rfl, _⟩ := List.cons.inj hrest
        exact ⟨[], a, as, before, more, rfl, hfirst, rfl⟩

theorem Sourced.InTag.prepend {records : List (Nat × Block)} {before : List Sourced}
    {s : Sourced} (h : s.InTag records before) (as : List Sourced) :
    s.InTag records (as ++ before) := by
  obtain ⟨earlier, tag, values, owner, o, name, span, attr, l, rfl, hrest⟩ := h
  refine ⟨as ++ earlier, tag, values, owner, o, name, span, attr, l, ?_, hrest⟩
  simp only [List.append_assoc]

namespace Attributed

variable {records : List (Nat × Block)} {as bs : List Sourced} {s : Sourced}

theorem nil : Attributed records [] := by
  intro before s after h
  exact absurd h (by simp)

theorem append (h : Attributed records as) (h' : Attributed records bs) :
    Attributed records (as ++ bs) := by
  intro before s after heq hs
  rcases List.append_eq_append_iff.1 heq with ⟨before', rfl, hbs⟩ | ⟨more, rfl, hrest⟩
  · exact (h' before' s after hbs hs).prepend as
  · cases more with
    | nil =>
      have hsecond := (h' [] s after hrest.symm hs).prepend before
      rwa [List.append_nil] at hsecond
    | cons s' more =>
      obtain ⟨rfl, _⟩ := List.cons.inj hrest
      exact h before s more rfl hs

theorem single (hs : s.instruction.isValue = false) : Attributed records [s] := by
  intro before s' after heq hvalue
  cases before with
  | nil =>
    cases (List.cons.inj heq).1
    rw [hs] at hvalue
    cases hvalue
  | cons first before => exact absurd (List.cons.inj heq).2 (by simp)

theorem cons (hs : s.instruction.isValue = false) (h : Attributed records as) :
    Attributed records (s :: as) :=
  (single hs).append h

theorem tag {owner span : Nat} {name : ElementName} {groups : List (Group (Nat × Literal))}
    (h : ∀ g ∈ groups, ∀ v ∈ g.values, (v.1, Block.leaf (.valued g.name v.2)) ∈ records ∧
      Block.Owns records owner v.1) :
    Attributed records (⟨.startTag name span, some owner⟩ :: groups.flatMap Group.code) := by
  intro before s after heq hs
  cases before with
  | nil =>
    cases (List.cons.inj heq).1
    cases hs
  | cons first before =>
    obtain ⟨rfl, hgroups⟩ := List.cons.inj heq
    obtain ⟨groups₁, g, groups₂, code₁, code₂, rfl, hcode, rfl⟩ :=
      exists_of_flatMap_eq groups hgroups
    obtain ⟨values, rfl, hvalues⟩ := Group.before_value hcode hs
    have hmem : s ∈ g.code := by
      rw [hcode]
      simp
    rcases (Group.mem_code hmem).2 with ⟨_, hpunctuation⟩ | ⟨v, hv, hsource, _⟩
    · cases hi : s.instruction <;> rw [hi] at hs hpunctuation <;> cases hs <;> cases hpunctuation
    · obtain ⟨hrecord, howns⟩ := h g (by simp) v hv
      refine ⟨[], groups₁.flatMap Group.code, values, owner, v.1, name, span, g.name, v.2, rfl,
        fun a ha => ?_, hvalues, hsource, hrecord, howns⟩
      obtain ⟨g', _, ha⟩ := List.mem_flatMap.1 ha
      exact (Group.mem_code ha).1

end Attributed

end HtmlTape
