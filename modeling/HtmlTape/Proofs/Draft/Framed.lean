import HtmlTape.Proofs.Draft.Lookups
import HtmlTape.Proofs.Recorder.Aborted

/-!
# Drafts around drafts

What is recorded on a blank draft can be recorded on every other one: what stands there is around
it, or before it on the same level, and is left alone.  `Draft.Framed base m m'` says that `m'` is
`m` with the draft `base` around it.  Requests that do not start over keep drafts so related
(`Draft.Framed.request`).

Which of them are granted does not depend on how many items stand before (`Draft.Framed.takes`).
-/

namespace HtmlTape

namespace Draft

/-- The second draft is the first one with a draft around it: with its levels around those of the
first, and its items before those of the outermost of them. -/
inductive Framed (base : Draft String) : Draft String → Draft String → Prop where
  | ground (items : List (Item String)) (names : Names) : Framed base ⟨⟨.root, items⟩, [], names⟩
    ⟨⟨base.current.scope, base.current.items ++ items⟩, base.outer, names⟩
  | level {sheet parent parent' : Sheet String} {outer outer' : List (Sheet String)}
    {names : Names} : sheet.scope ≠ .root →
    Framed base ⟨parent, outer, names⟩ ⟨parent', outer', names⟩ →
    Framed base ⟨sheet, parent :: outer, names⟩ ⟨sheet, parent' :: outer', names⟩

variable {base base' m m' m'' n n' : Draft String}

theorem framed_blank (base : Draft String) : Framed base (blank base.names) base := by
  have hground : Framed base _ _ := .ground [] base.names
  rwa [List.append_nil] at hground

theorem enter_of_le (m : Draft String) (scope : Scope) (first : List (Item String)) {count : Nat}
    (h : count ≤ m.current.items.length) : m.enter scope first count =
      some ⟨⟨scope, first ++ m.current.taken count⟩, m.current.keep count :: m.outer, m.names⟩ :=
  if_neg (Nat.not_lt.2 h)

theorem le_of_enter {scope : Scope} {first : List (Item String)} {count : Nat}
    (h : m.enter scope first count = some n) : count ≤ m.current.items.length := by
  rw [enter] at h
  split at h
  · cases h
  · exact Nat.le_of_not_lt ‹_›

namespace Framed

theorem names_eq (h : Framed base m m') : m'.names = m.names := by
  cases h <;> rfl

theorem setNames (h : Framed base m m') (names : Names) :
    Framed base { m with names } { m' with names } := by
  induction h with
  | ground items _ => exact .ground items names
  | level hscope _ ih => exact .level hscope ih

/-- There may be more items with the frame than without it. -/
theorem length_le (h : Framed base m m') : m.current.items.length ≤ m'.current.items.length := by
  cases h with
  | ground items names =>
    show items.length ≤ (base.current.items ++ items).length
    rw [List.length_append]
    exact Nat.le_add_left _ _
  | level => exact Nat.le_refl _

theorem add (h : Framed base m m') (item : Item String) : Framed base (m.add item) (m'.add item) := by
  cases h with
  | ground items names =>
    have hground : Framed base _ _ := .ground (items ++ [item]) names
    rw [← List.append_assoc] at hground
    exact hground
  | level hscope hin => exact .level hscope hin

theorem keep (h : Framed base m m') {count : Nat} (hcount : count ≤ m.current.items.length) :
    Framed base { m with current := m.current.keep count }
        { m' with current := m'.current.keep count } ∧
      m'.current.taken count = m.current.taken count := by
  cases h with
  | ground items names =>
    have hsub : (base.current.items ++ items).length - count =
        base.current.items.length + (items.length - count) := by
      rw [List.length_append]
      exact Nat.add_sub_assoc hcount _
    have hground : Framed base _ _ := .ground (items.take (items.length - count)) names
    constructor
    · rw [← List.take_length_add_append, ← hsub] at hground
      exact hground
    · show (base.current.items ++ items).drop ((base.current.items ++ items).length - count) = _
      rw [hsub, List.drop_length_add_append]
      rfl
  | level hscope hin => exact ⟨.level hscope hin, rfl⟩

/-! ### Calls -/

theorem enter (h : Framed base m m') {scope : Scope} (hscope : scope ≠ .root)
    {first : List (Item String)} {count : Nat} (hn : m.enter scope first count = some n) :
    ∃ n', m'.enter scope first count = some n' ∧ Framed base n n' := by
  have hcount := le_of_enter hn
  obtain ⟨hkeep, htaken⟩ := h.keep hcount
  refine ⟨_, m'.enter_of_le scope first (Nat.le_trans hcount h.length_le), ?_⟩
  rw [enter_eq_some hn, htaken]
  have hin := hkeep.setNames m.names
  rw [h.names_eq]
  exact .level hscope hin

theorem closeElement (h : Framed base m m') (hn : m.closeElement = some n) :
    ∃ n', m'.closeElement = some n' ∧ Framed base n n' := by
  cases h with
  | ground items names => cases hn
  | @level sheet parent parent' outer outer' names _ hin =>
    obtain ⟨scope, items⟩ := sheet
    cases scope with
    | root | fragment => cases hn
    | element name =>
      cases hn
      exact ⟨_, rfl, hin.add (.element name items)⟩

theorem endFragment (h : Framed base m m') (hn : m.endFragment = some n) :
    ∃ n', m'.endFragment = some n' ∧ Framed base n n' := by
  cases h with
  | ground items names => cases hn
  | @level sheet parent parent' outer outer' names _ hin =>
    obtain ⟨scope, items⟩ := sheet
    cases scope with
    | root | element name => cases hn
    | fragment =>
      cases hn
      exact ⟨_, rfl, hin.add (.fragment items)⟩

theorem abortFragment (h : Framed base m m') (hn : m.abortFragment = some n) :
    ∃ n', m'.abortFragment = some n' ∧ Framed base n n' := by
  cases h with
  | ground items names => cases hn
  | @level sheet parent parent' outer outer' names _ hin =>
    obtain ⟨scope, items⟩ := sheet
    cases scope with
    | root | element name => cases hn
    | fragment =>
      cases hn
      exact ⟨_, rfl, hin⟩

/-- **A call that does not start over does the same with a draft around.** -/
theorem step (h : Framed base m m') {call : Call ElementName AttributeName}
    (hover : call.startsOver = false) (hn : m.step call = some n) :
    ∃ n', m'.step call = some n' ∧ Framed base n n' := by
  cases call with
  | text | raw | doctype | valued | boolean =>
    cases hn
    exact ⟨_, rfl, h.add _⟩
  | openElement name | openWith name prepared args | adopt name count =>
    exact h.enter (by simp : Scope.element name ≠ .root) hn
  | beginFragment => exact h.enter (by simp : Scope.fragment ≠ .root) hn
  | closeElement => exact h.closeElement hn
  | fragment args =>
    obtain ⟨inner, hinner, hn⟩ := Option.bind_eq_some_iff.1 hn
    obtain ⟨inner', hinner', hin⟩ := h.enter (by simp : Scope.fragment ≠ .root) hinner
    obtain ⟨n', hn', hframed⟩ := hin.endFragment hn
    exact ⟨n', Option.bind_eq_some_iff.2 ⟨inner', hinner', hn'⟩, hframed⟩
  | endFragment => exact h.endFragment hn
  | abortFragment => exact h.abortFragment hn
  | finish | reset => cases hover
  | nextId | internElement | internAttribute =>
    cases hn
    exact ⟨m', rfl, h⟩

/-- **What is allowed does not depend on the draft around.** -/
theorem allows (h : Framed base m m') (g : Framed base' m m'')
    {call : Call ElementName AttributeName} (hover : call.startsOver = false)
    (hn : m.step call = some n) (hallow : m'.Allows call) : m''.Allows call := by
  have hnames : m''.names = m'.names := g.names_eq.trans h.names_eq.symm
  cases call with
  | text | raw | doctype | beginFragment | nextId | internElement | internAttribute => trivial
  | valued | boolean | openElement =>
    rw [Allows, hnames]
    exact hallow
  | openWith name prepared args =>
    rw [Allows, hnames]
    exact ⟨Nat.le_trans (le_of_enter hn) g.length_le, hallow.2⟩
  | adopt name count =>
    rw [Allows, hnames]
    exact ⟨Nat.le_trans (le_of_enter hn) g.length_le, hallow.2⟩
  | fragment args =>
    obtain ⟨inner, hinner, _⟩ := Option.bind_eq_some_iff.1 hn
    exact Nat.le_trans (le_of_enter hinner) g.length_le
  | closeElement | endFragment | abortFragment =>
    -- the level that is closed is one of the draft itself
    cases h with
    | ground => cases hn
    | level =>
      cases g with
      | level => exact hallow
  | finish | reset => cases hover

/-! ### Requests -/

theorem request (h : Framed base m m') {call : SpelledCall} (hover : call.startsOver = false)
    (hn : m.request call = some n) : ∃ n', m'.request call = some n' ∧ Framed base n n' := by
  rw [Draft.request] at hn ⊢
  rw [h.names_eq]
  cases hrun : (Lookup.call call).run { Recorder.new with names := m.names } with
  | mk result r =>
    rw [hrun] at hn
    cases result with
    | error e =>
      cases hn
      exact ⟨_, rfl, h.setNames r.names⟩
    | ok found =>
      rw [← Lookup.startsOver_eq hrun] at hover
      exact (h.setNames r.names).step hover hn

theorem allowsRequest (h : Framed base m m') (g : Framed base' m m'') {call : SpelledCall}
    (hover : call.startsOver = false) (hn : m.request call = some n)
    (hallow : m'.AllowsRequest call) : m''.AllowsRequest call := by
  rw [Draft.request] at hn
  rw [AllowsRequest] at hallow ⊢
  rw [h.names_eq] at hallow
  rw [g.names_eq]
  cases hrun : (Lookup.call call).run { Recorder.new with names := m.names } with
  | mk result r =>
    rw [hrun] at hn hallow
    cases result with
    | error e => trivial
    | ok found =>
      rw [← Lookup.startsOver_eq hrun] at hover
      exact (h.setNames r.names).allows (g.setNames r.names) hover hn hallow

/-- **A course that is taken with one draft around is taken with every other one**, if it can do
without any. -/
theorem takes {calls : List SpelledCall} (htakes : m'.Takes calls n') :
    ∀ {m m'' n : Draft String}, Framed base m m' → Framed base' m m'' →
      (∀ call ∈ calls, call.startsOver = false) → m.requestEach calls = some n →
        Framed base n n' ∧ ∃ n'', m''.Takes calls n'' ∧ Framed base' n n'' := by
  induction htakes with
  | nil =>
    intro m m'' n h g _ hn
    cases hn
    exact ⟨h, _, .nil _, g⟩
  | @cons m' m₁' n' call calls hallow hreq _ ih =>
    intro m m'' n h g hover hn
    obtain ⟨hcall, hcalls⟩ := List.forall_mem_cons.1 hover
    rw [requestEach, List.foldlM_cons] at hn
    obtain ⟨m₁, hm₁, hn⟩ := Option.bind_eq_some_iff.1 hn
    obtain ⟨_, hreq', h₁⟩ := h.request hcall hm₁
    obtain rfl := Option.some.inj (hreq.symm.trans hreq')
    obtain ⟨m₁'', hreq'', g₁⟩ := g.request hcall hm₁
    obtain ⟨hends, n'', htakes, hends'⟩ := ih h₁ g₁ hcalls hn
    exact ⟨hends, n'', .cons (h.allowsRequest g hcall hm₁ hallow) hreq'' htakes, hends'⟩

end Framed

end Draft

end HtmlTape
