import HtmlTape.Proofs.Code.Compiled
import HtmlTape.Pull.Element

/-!
# Reading bytecode at an offset

`Document.Has d pc is` says that the instructions `is` stand in a row from `pc` on.  Where the
bytecode of an element stands, its name, its span, its attributes and the window of its children
are what they are meant to be (`Element.name_eq`, `Element.span_eq`, `Element.groups_eq`,
`Element.window_children`).
-/

namespace HtmlTape

namespace Document

variable {d : Document} {pc : Nat} {i : Instruction} {is js : List Instruction}

/-- The instructions stand in a row from `pc` on. -/
def Has (d : Document) (pc : Nat) (is : List Instruction) : Prop :=
  ∃ before after, d.code = (before ++ Instruction.allWords is ++ after).toArray ∧
    before.length = pc

theorem Has.left (h : d.Has pc (is ++ js)) : d.Has pc is := by
  obtain ⟨before, after, hcode, hpc⟩ := h
  refine ⟨before, Instruction.allWords js ++ after, ?_, hpc⟩
  rw [hcode, Instruction.allWords_append, ← List.append_assoc, ← List.append_assoc]

theorem Has.right (h : d.Has pc (is ++ js)) : d.Has (pc + Instruction.totalWidth is) js := by
  obtain ⟨before, after, hcode, hpc⟩ := h
  refine ⟨before ++ Instruction.allWords is, after, ?_, ?_⟩
  · rw [hcode, Instruction.allWords_append, ← List.append_assoc]
  · rw [List.length_append, hpc, Instruction.length_allWords]

theorem Has.head (h : d.Has pc (i :: is)) : d.Has pc [i] := by
  rw [← List.singleton_append] at h
  exact h.left

theorem Has.tail (h : d.Has pc (i :: is)) : d.Has (pc + i.width) is := by
  rw [← List.singleton_append] at h
  exact h.right

theorem Has.instruction? (h : d.Has pc (i :: is)) : d.instruction? pc = some i := by
  obtain ⟨before, after, hcode, rfl⟩ := h.head
  rw [Document.instruction?, hcode, Instruction.allWords, List.flatMap_cons, List.flatMap_nil,
    List.append_nil]
  exact Instruction.readAt?_append before after i

theorem Has.word (h : d.Has pc (i :: is)) {k w : Nat} (hw : i.words[k]? = some w) :
    d.word (pc + k) = w := by
  obtain ⟨before, after, hcode, rfl⟩ := h.head
  have hk : k < i.words.length := (List.getElem?_eq_some_iff.1 hw).1
  rw [Document.word, hcode, Instruction.allWords, List.flatMap_cons, List.flatMap_nil,
    List.append_nil, Array.getD_eq_getD_getElem?, List.getElem?_toArray, List.append_assoc,
    List.getElem?_append_right (Nat.le_add_right _ _), Nat.add_sub_cancel_left,
    List.getElem?_append_left hk, hw]
  rfl

theorem Spells.has {forest : List (Tree Quote)} (h : d.Spells forest) :
    d.Has 0 (Tree.instructionsAll forest) :=
  ⟨[], [], by rw [h.code, List.nil_append, List.append_nil], rfl⟩

theorem Spells.size {forest : List (Tree Quote)} (h : d.Spells forest) :
    d.code.size = Instruction.totalWidth (Tree.instructionsAll forest) := by
  rw [h.code, List.size_toArray, Instruction.length_allWords]

end Document

/-! ### Attributes -/

/-- The instruction is neither an attribute nor a value of one. -/
def Instruction.isOutside : Instruction → Bool
  | .attributeName _ | .firstValue _ | .nextValue _ | .valueEnd => false
  | _ => true

def Instruction.ofValues : List Literal → List Instruction
  | [] => []
  | value :: values => .firstValue value :: values.map .nextValue ++ [.valueEnd]

theorem AttributeGroup.instructions_eq (g : AttributeGroup) :
    g.instructions = .attributeName g.name :: Instruction.ofValues g.values := by
  obtain ⟨name, values⟩ := g
  cases values <;> rfl

namespace Document

variable {d : Document} {pc : Nat} {i : Instruction}

theorem valuesFrom_of_isValue {l : Literal} (h : d.instruction? pc = some i)
    (hi : i = .firstValue l ∨ i = .nextValue l) :
    d.valuesFrom pc = (l :: (d.valuesFrom (pc + 3)).1, (d.valuesFrom (pc + 3)).2) := by
  rw [valuesFrom]
  split
  case h_1 l' h' =>
    rw [h] at h'
    rcases hi with rfl | rfl
    · cases h'
      rfl
    · cases h'
  case h_2 l' h' =>
    rw [h] at h'
    rcases hi with rfl | rfl
    · cases h'
    · cases h'
      rfl
  case h_3 h' =>
    rw [h] at h'
    rcases hi with rfl | rfl <;> cases h'
  case h_4 hfirst hnext _ =>
    rcases hi with rfl | rfl
    · exact absurd h (hfirst l)
    · exact absurd h (hnext l)

theorem valuesFrom_valueEnd (h : d.instruction? pc = some .valueEnd) :
    d.valuesFrom pc = ([], pc + 1) := by
  rw [valuesFrom]
  split
  case h_1 l h' | h_2 l h' =>
    rw [h] at h'
    cases h'
  case h_3 => rfl
  case h_4 hend => exact absurd h hend

theorem valuesFrom_of_notValue (h : d.instruction? pc = some i)
    (hi : i.isOutside ∨ ∃ name, i = .attributeName name) : d.valuesFrom pc = ([], pc) := by
  rw [valuesFrom]
  split
  case h_1 l h' | h_2 l h' | h_3 h' =>
    rw [h] at h'
    cases h'
    rcases hi with hi | ⟨name, hi⟩ <;> cases hi
  case h_4 => rfl

theorem valuesFrom_nextValues (ls : List Literal) : ∀ {pc : Nat},
    d.Has pc (ls.map Instruction.nextValue ++ [.valueEnd]) →
    d.valuesFrom pc =
      (ls, pc + Instruction.totalWidth (ls.map Instruction.nextValue ++ [.valueEnd])) := by
  induction ls with
  | nil =>
    intro pc h
    exact valuesFrom_valueEnd h.instruction?
  | cons l ls ih =>
    intro pc h
    rw [valuesFrom_of_isValue h.instruction? (.inr rfl)]
    have hrest : d.valuesFrom (pc + 3) = _ := ih h.tail
    rw [hrest, List.map_cons, List.cons_append, Instruction.totalWidth_cons, ← Nat.add_assoc]
    rfl

theorem valuesFrom_eq {values : List Literal} {rest : List Instruction}
    (h : d.Has pc (Instruction.ofValues values ++ i :: rest))
    (hi : i.isOutside ∨ ∃ name, i = .attributeName name) :
    d.valuesFrom pc = (values, pc + Instruction.totalWidth (Instruction.ofValues values)) := by
  cases values with
  | nil => exact valuesFrom_of_notValue h.instruction? hi
  | cons l ls =>
    have hvalues : d.Has pc (.firstValue l :: (ls.map .nextValue ++ [.valueEnd])) := h.left
    rw [valuesFrom_of_isValue hvalues.instruction? (.inl rfl)]
    have hrest : d.valuesFrom (pc + 3) = _ := valuesFrom_nextValues ls hvalues.tail
    rw [hrest, Instruction.ofValues, List.cons_append, Instruction.totalWidth_cons,
      ← Nat.add_assoc]
    rfl

theorem groupsFrom_attribute {name : AttributeName}
    (h : d.instruction? pc = some (.attributeName name)) :
    d.groupsFrom pc =
      (⟨name, (d.valuesFrom (pc + 2)).1⟩ :: (d.groupsFrom (d.valuesFrom (pc + 2)).2).1,
        (d.groupsFrom (d.valuesFrom (pc + 2)).2).2) := by
  rw [groupsFrom]
  split
  case h_1 name' h' =>
    rw [h] at h'
    cases h'
    rfl
  case h_2 hname => exact absurd h (hname name)

theorem groupsFrom_of_isOutside (h : d.instruction? pc = some i) (hi : i.isOutside) :
    d.groupsFrom pc = ([], pc) := by
  rw [groupsFrom]
  split
  case h_1 name h' =>
    rw [h] at h'
    cases h'
    cases hi
  case h_2 => rfl

/-- **The attributes of an element are read where they stand**, up to the end of the tag. -/
theorem groupsFrom_eq (groups : List AttributeGroup) {rest : List Instruction}
    (hi : i.isOutside) : ∀ {pc : Nat},
    d.Has pc (groups.flatMap AttributeGroup.instructions ++ i :: rest) →
    d.groupsFrom pc =
      (groups, pc + Instruction.totalWidth (groups.flatMap AttributeGroup.instructions)) := by
  induction groups with
  | nil =>
    intro pc h
    exact groupsFrom_of_isOutside h.instruction? hi
  | cons g groups ih =>
    intro pc h
    have hinstr := g.instructions_eq
    rw [List.flatMap_cons, hinstr, List.append_assoc] at h
    have hvalues : d.valuesFrom (pc + 2) =
        (g.values, pc + 2 + Instruction.totalWidth (Instruction.ofValues g.values)) := by
      cases groups with
      | nil => exact valuesFrom_eq h.tail (.inl hi)
      | cons g' groups =>
        have htail := h.tail
        rw [List.flatMap_cons, g'.instructions_eq] at htail
        exact valuesFrom_eq htail (.inr ⟨_, rfl⟩)
    have htail : d.Has (pc + 2) (Instruction.ofValues g.values ++ _) := h.tail
    have hrest := ih htail.right
    rw [groupsFrom_attribute h.instruction?, hvalues]
    simp only
    rw [hrest, List.flatMap_cons, hinstr, Instruction.totalWidth_append,
      Instruction.totalWidth_cons]
    refine congrArg (Prod.mk _) ?_
    show pc + 2 + _ + _ = pc + (2 + _ + _)
    omega

end Document

/-! ### Elements -/

namespace Element

variable {d : Document} {e : Element} {name : ElementName} {groups : List AttributeGroup}

theorem name_eq {content : Content}
    (h : d.Has e.start (elementInstructions name groups content)) : e.name d = name := by
  have hword : d.word (e.start + 1) = name.code := by
    rw [elementInstructions.eq_def] at h
    exact h.word rfl
  rw [Element.name, hword]

theorem span_eq {content : Content}
    (h : d.Has e.start (elementInstructions name groups content)) :
    e.span d = Instruction.totalWidth (elementInstructions name groups content) := by
  rw [elementInstructions.eq_def] at h ⊢
  exact h.word rfl

theorem groupsFrom_eq {i : Instruction} {rest : List Instruction} {span : Nat}
    (hi : i.isOutside) (h : d.Has e.start (.startTag name span ::
      (groups.flatMap AttributeGroup.instructions ++ i :: rest))) :
    d.groupsFrom (e.start + 3) = (groups, e.start + 3 +
      Instruction.totalWidth (groups.flatMap AttributeGroup.instructions)) :=
  Document.groupsFrom_eq groups hi h.tail

theorem groups_eq {content : Content}
    (h : d.Has e.start (elementInstructions name groups content)) : e.groups d = groups := by
  cases content with
  | void => exact congrArg Prod.fst (groupsFrom_eq rfl h)
  | children flag is => exact congrArg Prod.fst (groupsFrom_eq rfl h)

theorem window_void (h : d.Has e.start (elementInstructions name groups .void)) :
    ∃ first, e.window d = .ok (first, first) ∧ d.Has first [] := by
  have hstop : e.tagEnd d = e.start + 3 +
      Instruction.totalWidth (groups.flatMap AttributeGroup.instructions) :=
    congrArg Prod.snd (groupsFrom_eq rfl h)
  have htag : d.Has (e.tagEnd d) [.voidEnd] := by
    rw [hstop]
    exact Document.Has.right h.tail
  refine ⟨e.tagEnd d + 1, ?_, htag.tail⟩
  rw [window, htag.instruction?]

/-- The window of an element's children is where their bytecode stands. -/
theorem window_children {flag : Bool} {is : List Instruction}
    (h : d.Has e.start (elementInstructions name groups (.children flag is))) :
    e.hasChildren d = flag ∧ ∃ first, e.window d = .ok (first, first + Instruction.totalWidth is) ∧
      d.Has first is := by
  have hstop : e.tagEnd d = e.start + 3 +
      Instruction.totalWidth (groups.flatMap AttributeGroup.instructions) :=
    congrArg Prod.snd (groupsFrom_eq rfl h)
  have hspan := span_eq h
  have htag : d.Has (e.tagEnd d) (.startTagEnd flag :: (is ++ [.endTag name])) := by
    rw [hstop]
    exact Document.Has.right h.tail
  refine ⟨?_, e.tagEnd d + 2, ?_, htag.tail.left⟩
  · rw [hasChildren, htag.instruction?]
    cases flag <;> rfl
  · rw [window, htag.instruction?, hspan]
    refine congrArg (fun stop => Except.ok (e.tagEnd d + 2, stop)) ?_
    rw [elementInstructions.eq_def, Instruction.totalWidth_cons, Instruction.totalWidth_append,
      Instruction.totalWidth_append, Instruction.totalWidth_cons, hstop]
    show e.start + (3 + (_ + (2 + _ + 2))) - 2 = _
    omega

/-- **The window of an element of a tree** is where the bytecode of its children stands. -/
theorem window_eq {groups : List (Group Quote)} {children : List (Tree Quote)}
    (h : d.Has e.start (Tree.element name groups children).instructions)
    (hvoid : name.kind.isVoid → children = []) :
    ∃ first, e.window d =
        .ok (first, first + Instruction.totalWidth (Tree.instructionsAll children)) ∧
      d.Has first (Tree.instructionsAll children) := by
  rw [Tree.instructions] at h
  by_cases hv : name.kind.isVoid
  · rw [if_pos hv] at h
    rw [hvoid hv]
    exact window_void h
  · rw [if_neg hv] at h
    exact (window_children h).2

end Element

end HtmlTape
