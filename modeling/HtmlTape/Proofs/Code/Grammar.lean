import HtmlTape.Code.Listing
import HtmlTape.Proofs.Code.Compiled
import HtmlTape.Proofs.Name.Sound
import HtmlTape.Proofs.Text.Entry
import HtmlTape.Proofs.Text.Escaped

/-!
# The grammar of bytecode

Bytecode is a row of nodes (`Code.Nodes`): leaves, and elements whose second operand is the number
of their words.  The bytecode of trees has this form (`Tree.SoundAll.nodes`), and wherever a start
tag stands in it, as many words as the tag tells from there on are one whole element of the same
name (`Tree.SoundAll.element_at`).  A listing of such bytecode reads to the end.
-/

namespace HtmlTape

namespace Code

/-- The words of an attribute: its name, and its values if it has any. -/
inductive Attribute (names : Names) (pool : String) : AttributeName → List Nat → Prop
  | boolean {name : AttributeName} (hname : (names.attributeText? name).isSome) :
      Attribute names pool name (Instruction.attributeName name).words
  | valued {name : AttributeName} {l : Literal} {ls : List Literal}
      (hname : (names.attributeText? name).isSome)
      (hread : ∀ l' ∈ l :: ls, (l'.read? pool).isSome) :
      Attribute names pool name ((Instruction.attributeName name).words ++
        (Instruction.firstValue l).words ++
        ls.flatMap (fun l => (Instruction.nextValue l).words) ++ Instruction.valueEnd.words)

/-- The words of the attributes of an element; no name occurs twice. -/
def Attributes (names : Names) (pool : String) (words : List Nat) : Prop :=
  ∃ groups : List (AttributeName × List Nat), words = groups.flatMap Prod.snd ∧
    (groups.map Prod.fst).Nodup ∧ ∀ g ∈ groups, Attribute names pool g.1 g.2

mutual

/-- The words of an element.  The span of the start tag is the number of all words; a void element
ends with its start tag, and any other with an end tag of the same name. -/
inductive Element (names : Names) (pool : String) : ElementName → List Nat → Prop
  | void {name : ElementName} {attributes : List Nat} {span : Nat}
      (hname : (names.elementText? name).isSome) (hvoid : name.kind.isVoid)
      (hattrs : Attributes names pool attributes)
      (hspan : span = 3 + attributes.length + 1) :
      Element names pool name ((Instruction.startTag name span).words ++ attributes ++
        Instruction.voidEnd.words)
  | children {name : ElementName} {attributes nodes : List Nat} {span : Nat} {flag : Bool}
      (hname : (names.elementText? name).isSome) (hvoid : ¬ name.kind.isVoid)
      (hattrs : Attributes names pool attributes) (hnodes : Nodes names pool nodes)
      (hspan : span = 3 + attributes.length + 2 + nodes.length + 2)
      (hflag : flag = true ↔ nodes ≠ []) :
      Element names pool name ((Instruction.startTag name span).words ++ attributes ++
        (Instruction.startTagEnd flag).words ++ nodes ++ (Instruction.endTag name).words)

/-- The words of nodes, laid end to end. -/
inductive Nodes (names : Names) (pool : String) : List Nat → Prop
  | nil : Nodes names pool []
  | doctype {ws : List Nat} (rest : Nodes names pool ws) :
      Nodes names pool (Instruction.doctype.words ++ ws)
  | text {l : Literal} {ws : List Nat} (hread : (l.read? pool).isSome)
      (rest : Nodes names pool ws) : Nodes names pool ((Instruction.text l).words ++ ws)
  | raw {l : Literal} {ws : List Nat} (hread : (l.read? pool).isSome)
      (rest : Nodes names pool ws) : Nodes names pool ((Instruction.raw l).words ++ ws)
  | element {name : ElementName} {w ws : List Nat} (h : Element names pool name w)
      (rest : Nodes names pool ws) : Nodes names pool (w ++ ws)

end

end Code

variable {names : Names} {pool : String}

/-! ### Attributes -/

theorem Group.Sound.readable {g : Group Quote} (h : g.Sound names pool) :
    ∀ l ∈ g.attribute.values, (l.read? pool).isSome := by
  intro l hl
  obtain ⟨q, hq, rfl⟩ := List.mem_map.1 hl
  rw [h.2 q hq]
  rfl

theorem Group.Sound.attribute {g : Group Quote} (h : g.Sound names pool) :
    Code.Attribute names pool g.name (Instruction.allWords g.attribute.instructions) := by
  have hread := h.readable
  obtain ⟨name, values⟩ := g
  cases values with
  | nil =>
    have hwords : Instruction.allWords (Group.attribute ⟨name, []⟩).instructions =
        (Instruction.attributeName name).words := rfl
    rw [hwords]
    exact .boolean h.1
  | cons q qs =>
    have hwords : Instruction.allWords (Group.attribute ⟨name, q :: qs⟩).instructions =
        (Instruction.attributeName name).words ++ (Instruction.firstValue q.literal).words ++
          (qs.map Quote.literal).flatMap (fun l => (Instruction.nextValue l).words) ++
          Instruction.valueEnd.words := by
      simp [AttributeGroup.instructions, Group.attribute, Instruction.allWords,
        List.flatMap_append, List.flatMap_map]
    rw [hwords]
    exact .valued h.1 hread

theorem Code.attributes_of_sound {groups : List (Group Quote)}
    (hnodup : (groups.map Group.name).Nodup) (hsound : ∀ g ∈ groups, g.Sound names pool) :
    Code.Attributes names pool (Instruction.allWords
      ((groups.map Group.attribute).flatMap AttributeGroup.instructions)) := by
  refine ⟨groups.map fun g => (g.name, Instruction.allWords g.attribute.instructions), ?_, ?_, ?_⟩
  · rw [Instruction.allWords, List.flatMap_assoc, List.flatMap_map, List.flatMap_map]
    rfl
  · rw [List.map_map]
    exact hnodup
  · intro p hp
    obtain ⟨g, hg, rfl⟩ := List.mem_map.1 hp
    exact (hsound g hg).attribute

/-! ### Elements -/

theorem allWords_void (name : ElementName) (groups : List AttributeGroup) :
    Instruction.allWords (elementInstructions name groups .void) =
      (Instruction.startTag name (3 + (Instruction.allWords
          (groups.flatMap AttributeGroup.instructions)).length + 1)).words ++
        Instruction.allWords (groups.flatMap AttributeGroup.instructions) ++
        Instruction.voidEnd.words := by
  have hspan : 3 + Instruction.totalWidth
      (groups.flatMap AttributeGroup.instructions ++ [.voidEnd]) =
      3 + (Instruction.allWords (groups.flatMap AttributeGroup.instructions)).length + 1 := by
    rw [Instruction.totalWidth_append, Instruction.length_allWords]
    rfl
  rw [← hspan, elementInstructions.eq_def]
  simp [Instruction.allWords, List.flatMap_append]

theorem allWords_children (name : ElementName) (groups : List AttributeGroup) (flag : Bool)
    (is : List Instruction) :
    Instruction.allWords (elementInstructions name groups (.children flag is)) =
      (Instruction.startTag name (3 + (Instruction.allWords
          (groups.flatMap AttributeGroup.instructions)).length + 2 +
          (Instruction.allWords is).length + 2)).words ++
        Instruction.allWords (groups.flatMap AttributeGroup.instructions) ++
        (Instruction.startTagEnd flag).words ++ Instruction.allWords is ++
        (Instruction.endTag name).words := by
  have hspan : 3 + Instruction.totalWidth (groups.flatMap AttributeGroup.instructions ++
      (.startTagEnd flag :: is ++ [.endTag name])) =
      3 + (Instruction.allWords (groups.flatMap AttributeGroup.instructions)).length + 2 +
        (Instruction.allWords is).length + 2 := by
    rw [Instruction.totalWidth_append, Instruction.totalWidth_append, Instruction.totalWidth_cons,
      Instruction.length_allWords, Instruction.length_allWords]
    show _ + (_ + (2 + _ + 2)) = _
    omega
  rw [← hspan, elementInstructions.eq_def]
  simp [Instruction.allWords, List.flatMap_append]

theorem Tree.instructionsAll_ne_nil {forest : List (Tree Quote)} (h : forest ≠ []) :
    Instruction.allWords (Tree.instructionsAll forest) ≠ [] := by
  intro hnil
  have hlength := congrArg List.length hnil
  rw [Instruction.length_allWords, List.length_nil] at hlength
  cases forest with
  | nil => exact h rfl
  | cons tree rest =>
    have := tree.totalWidth_pos
    rw [Tree.instructionsAll, Instruction.totalWidth_append] at hlength
    omega

/-- The bytecode of an element has the form of an element if that of its children is a row of
nodes. -/
theorem Tree.Sound.element {name : ElementName} {groups : List (Group Quote)}
    {children : List (Tree Quote)} (h : (Tree.element name groups children).Sound names pool)
    (hnodes : Code.Nodes names pool (Instruction.allWords (Tree.instructionsAll children))) :
    Code.Element names pool name
      (Instruction.allWords (Tree.element name groups children).instructions) := by
  obtain ⟨hname, hnodup, hgroups, hvoid, hchildren⟩ := h
  have hattrs := Code.attributes_of_sound hnodup hgroups
  rw [Tree.instructions]
  by_cases hv : name.kind.isVoid
  · rw [if_pos hv, allWords_void]
    exact .void hname hv hattrs rfl
  · rw [if_neg hv, allWords_children]
    refine .children hname hv hattrs hnodes rfl ?_
    cases children with
    | nil => simp [Tree.instructionsAll, Instruction.allWords]
    | cons tree rest =>
      have := Tree.instructionsAll_ne_nil (List.cons_ne_nil tree rest)
      simp [this]

/-- **The bytecode of sound trees is a row of nodes.** -/
theorem Tree.SoundAll.nodes (forest : List (Tree Quote)) :
    Tree.SoundAll names pool forest →
      Code.Nodes names pool (Instruction.allWords (Tree.instructionsAll forest)) := by
  induction forest using Tree.forest_induction with
  | nil => intro _; exact .nil
  | doctype rest ih => intro h; exact .doctype (ih h.2)
  | text q rest ih => intro h; exact .text (by rw [h.1]; rfl) (ih h.2)
  | raw q rest ih => intro h; exact .raw (by rw [h.1]; rfl) (ih h.2)
  | element name groups children rest ih₁ ih₂ =>
    intro h
    rw [Tree.instructionsAll, Instruction.allWords_append]
    exact .element (h.1.element (ih₁ h.1.children)) (ih₂ h.2)

/-! ### Spans -/

/-- Wherever the instructions stand, each start tag among them starts an element of as many words
as it tells. -/
def Code.Spanned (names : Names) (pool : String) (is : List Instruction) : Prop :=
  ∀ (before after : List Nat) (p : Nat) (name : ElementName) (span : Nat),
    (p, .startTag name span) ∈ Instruction.placedAll before.length is →
    Code.Element names pool name
      (((before ++ Instruction.allWords is ++ after).drop p).take span)

namespace Code.Spanned

variable {is js : List Instruction}

theorem append (h : Code.Spanned names pool is) (g : Code.Spanned names pool js) :
    Code.Spanned names pool (is ++ js) := by
  intro before after p name span hp
  rw [Instruction.placedAll_append] at hp
  rw [Instruction.allWords_append]
  rcases List.mem_append.1 hp with hp | hp
  · have := h before (Instruction.allWords js ++ after) p name span hp
    rwa [← List.append_assoc, List.append_assoc before] at this
  · rw [← Instruction.length_allWords, ← List.length_append] at hp
    have := g (before ++ Instruction.allWords is) after p name span hp
    rwa [List.append_assoc before] at this

theorem of_notMem (h : ∀ name span, Instruction.startTag name span ∉ is) :
    Code.Spanned names pool is := by
  intro before after p name span hp
  have hmem := List.mem_map_of_mem (f := Prod.snd) hp
  rw [Instruction.map_snd_placedAll] at hmem
  exact absurd hmem (h name span)

/-- A start tag that tells the number of all words, up to the end of the element. -/
theorem cons {name : ElementName} {span : Nat}
    (hspan : span = (Instruction.allWords (.startTag name span :: is)).length)
    (helement : Code.Element names pool name (Instruction.allWords (.startTag name span :: is)))
    (h : Code.Spanned names pool is) : Code.Spanned names pool (.startTag name span :: is) := by
  intro before after p name' span' hp
  rcases List.mem_cons.1 hp with hp | hp
  · cases hp
    rw [List.append_assoc, List.drop_left, List.take_left' hspan.symm]
    exact helement
  · have := h (before ++ (Instruction.startTag name span).words) after p name' span'
      (by rw [List.length_append]; exact hp)
    rwa [List.append_assoc before] at this

end Code.Spanned

theorem AttributeGroup.startTag_notMem (groups : List AttributeGroup) (name : ElementName)
    (span : Nat) :
    Instruction.startTag name span ∉ groups.flatMap AttributeGroup.instructions := by
  intro h
  obtain ⟨⟨_, values⟩, _, hi⟩ := List.mem_flatMap.1 h
  cases values with
  | nil => simp [AttributeGroup.instructions] at hi
  | cons l ls => simp [AttributeGroup.instructions] at hi

/-- **The spans of start tags.**  As many words as a start tag tells, counted from its own place,
are one whole element. -/
theorem Tree.SoundAll.spanned (forest : List (Tree Quote)) :
    Tree.SoundAll names pool forest → Code.Spanned names pool (Tree.instructionsAll forest) := by
  induction forest using Tree.forest_induction with
  | nil => intro _; exact .of_notMem (by simp [Tree.instructionsAll])
  | doctype rest ih =>
    intro h
    exact .append (.of_notMem (by simp [Tree.instructions])) (ih h.2)
  | text q rest ih =>
    intro h
    exact .append (.of_notMem (by simp [Tree.instructions])) (ih h.2)
  | raw q rest ih =>
    intro h
    exact .append (.of_notMem (by simp [Tree.instructions])) (ih h.2)
  | element name groups children rest ih₁ ih₂ =>
    intro h
    have helement := h.1.element (Tree.SoundAll.nodes children h.1.children)
    refine .append ?_ (ih₂ h.2)
    have hattrs : Code.Spanned names pool
        ((groups.map Group.attribute).flatMap AttributeGroup.instructions) :=
      .of_notMem (AttributeGroup.startTag_notMem _)
    rw [Tree.instructions] at helement ⊢
    by_cases hv : name.kind.isVoid
    · rw [if_pos hv] at helement ⊢
      rw [elementInstructions.eq_def] at helement ⊢
      refine .cons ?_ helement (hattrs.append (.of_notMem (by simp)))
      rw [Instruction.length_allWords, Instruction.totalWidth_cons]
      rfl
    · rw [if_neg hv] at helement ⊢
      rw [elementInstructions.eq_def] at helement ⊢
      have htag : Code.Spanned names pool [.startTagEnd (!children.isEmpty)] :=
        .of_notMem (by simp)
      have hend : Code.Spanned names pool [.endTag name] := .of_notMem (by simp)
      refine .cons ?_ helement (hattrs.append (htag.append ((ih₁ h.1.children).append hend)))
      rw [Instruction.length_allWords, Instruction.totalWidth_cons]
      rfl

/-! ### Listings -/

/-- The names of the instruction have a text, and its literal is a range of the pool. -/
def Instruction.Readable (names : Names) (pool : String) : Instruction → Prop
  | .startTag name _ | .endTag name => (names.elementText? name).isSome
  | .attributeName name => (names.attributeText? name).isSome
  | .firstValue l | .nextValue l | .text l | .raw l => (l.read? pool).isSome
  | .doctype | .valueEnd | .startTagEnd _ | .voidEnd => True

theorem Group.Sound.instructions_readable {g : Group Quote} (h : g.Sound names pool) :
    ∀ i ∈ g.attribute.instructions, i.Readable names pool := by
  have hread := h.readable
  obtain ⟨name, values⟩ := g
  intro i hi
  cases values with
  | nil =>
    obtain rfl := List.mem_singleton.1 hi
    exact h.1
  | cons q qs =>
    rcases List.mem_cons.1 hi with rfl | hi
    · exact h.1
    rcases List.mem_append.1 hi with hi | hi
    · rcases List.mem_cons.1 hi with rfl | hi
      · exact hread _ List.mem_cons_self
      · obtain ⟨l, hl, rfl⟩ := List.mem_map.1 hi
        exact hread l (List.mem_cons_of_mem _ hl)
    · obtain rfl := List.mem_singleton.1 hi
      trivial

theorem Tree.SoundAll.readable (forest : List (Tree Quote)) :
    Tree.SoundAll names pool forest →
      ∀ i ∈ Tree.instructionsAll forest, i.Readable names pool := by
  induction forest using Tree.forest_induction with
  | nil => intro _ i hi; cases hi
  | doctype rest ih =>
    intro h
    exact List.forall_mem_cons.2 ⟨trivial, ih h.2⟩
  | text q rest ih =>
    intro h
    exact List.forall_mem_cons.2 ⟨by rw [Instruction.Readable, h.1]; rfl, ih h.2⟩
  | raw q rest ih =>
    intro h
    exact List.forall_mem_cons.2 ⟨by rw [Instruction.Readable, h.1]; rfl, ih h.2⟩
  | element name groups children rest ih₁ ih₂ =>
    intro h
    obtain ⟨⟨hname, _, hgroups, _, hchildren⟩, hrest⟩ := h
    have hattrs : ∀ i ∈ (groups.map Group.attribute).flatMap AttributeGroup.instructions,
        i.Readable names pool := by
      intro i hi
      obtain ⟨_, hattr, hi⟩ := List.mem_flatMap.1 hi
      obtain ⟨g, hg, rfl⟩ := List.mem_map.1 hattr
      exact (hgroups g hg).instructions_readable i hi
    refine List.forall_mem_append.2 ⟨?_, ih₂ hrest⟩
    rw [Tree.instructions]
    by_cases hv : name.kind.isVoid
    · rw [if_pos hv, elementInstructions.eq_def]
      refine List.forall_mem_cons.2 ⟨hname, List.forall_mem_append.2 ⟨hattrs, ?_⟩⟩
      exact List.forall_mem_cons.2 ⟨trivial, by simp⟩
    · rw [if_neg hv, elementInstructions.eq_def]
      refine List.forall_mem_cons.2 ⟨hname, List.forall_mem_append.2 ⟨hattrs, ?_⟩⟩
      refine List.forall_mem_cons.2 ⟨trivial, List.forall_mem_append.2 ⟨ih₁ hchildren, ?_⟩⟩
      exact List.forall_mem_cons.2 ⟨hname, by simp⟩

theorem Document.exists_listingLine {d : Document} (hsound : d.names.Sound) {i : Instruction}
    (h : i.Readable d.names d.pool) (pc : Nat) :
    ∃ s, d.listingLine pc i = .ok s ∧ Text.IsEntry pc i.label s := by
  have hliteral : ∀ l : Literal, (l.read? d.pool).isSome →
      ∃ s : String, (d.quotedLiteral l).map (" " ++ ·) = .ok s ∧ '\n' ∉ s.toList := by
    intro l hl
    obtain ⟨s, hs⟩ := Option.isSome_iff_exists.1 hl
    refine ⟨" " ++ Text.quoted s.toList, by rw [quotedLiteral, literal, Literal.read, hs]; rfl, ?_⟩
    simpa using Text.lineFeed_notMem_quoted s.toList
  have hoperands : ∃ s : String, d.describeOperands i = .ok s ∧ '\n' ∉ s.toList := by
    cases i with
    | startTag name span =>
      have hspan := Text.lineFeed_notMem_toString span
      refine ⟨_, by rw [describeOperands, Names.elementText_eq h]; rfl, ?_⟩
      simpa [toString, hsound.lineFeed_notMem_tag name] using hspan
    | endTag name =>
      refine ⟨_, by rw [describeOperands, Names.elementText_eq h]; rfl, ?_⟩
      simpa using hsound.lineFeed_notMem_tag name
    | attributeName name =>
      refine ⟨_, by rw [describeOperands, Names.attributeText_eq h]; rfl, ?_⟩
      simpa using hsound.lineFeed_notMem_attr name
    | firstValue l | nextValue l | text l | raw l => exact hliteral l h
    | startTagEnd hasChildren => exact ⟨_, rfl, by cases hasChildren <;> decide⟩
    | doctype | valueEnd | voidEnd => exact ⟨_, rfl, by decide⟩
  obtain ⟨s, hs, hfree⟩ := hoperands
  refine ⟨_, by rw [listingLine, hs]; rfl, ?_⟩
  have hlabel : '\n' ∉ i.label.toList := by cases i <;> simp [Instruction.label]
  have hline : Text.IsEntry pc i.label (Text.column '0' pc ++ " " ++ (i.label ++ s) ++ "\n") :=
    Text.isEntry_column (by simpa [hlabel] using hfree)
  rwa [← String.append_assoc] at hline

theorem Document.Spells.listing {d : Document} {forest : List (Tree Quote)} (h : d.Spells forest)
    (hsound : d.names.Sound) :
    ∃ lines, d.instructions.mapM (fun p => d.listingLine p.1 p.2) = .ok lines ∧
      d.listing = .ok (String.join lines) ∧
      List.Forall₂ (fun p line => Text.IsEntry p.1 p.2.label line) d.instructions lines := by
  obtain ⟨lines, hlines, hentries⟩ := exists_mapM_eq_ok d.instructions
    (f := fun p => d.listingLine p.1 p.2)
    (P := fun p line => Text.IsEntry p.1 p.2.label line) <| by
      intro p hp
      have hmem := List.mem_map_of_mem (f := Prod.snd) hp
      rw [instructions_eq h.code, Instruction.map_snd_placedAll] at hmem
      exact exists_listingLine hsound (Tree.SoundAll.readable forest h.sound _ hmem) p.1
  refine ⟨lines, hlines, ?_, hentries⟩
  have hsize : ¬ d.readableSize < d.code.size := by
    rw [readableSize_eq h.code]
    exact Nat.lt_irrefl _
  rw [Document.listing, hlines]
  show Except.ok (String.join lines ++ if d.readableSize < d.code.size then _ else _) = _
  rw [if_neg hsize, String.append_empty]

/-- The code is a row of nodes that reads from its first word to its last, and the lines are those
of its listing. -/
structure Document.Listed (d : Document) (lines : List String) : Prop where
  nodes : Code.Nodes d.names d.pool d.code.toList
  elements : ∀ p name span, (p, .startTag name span) ∈ d.instructions →
    Code.Element d.names d.pool name ((d.code.toList.drop p).take span)
  words : Instruction.allWords (d.instructions.map Prod.snd) = d.code.toList
  size : d.readableSize = d.code.size
  rows : d.instructions.mapM (fun p => d.listingLine p.1 p.2) = .ok lines
  listing : d.listing = .ok (String.join lines)
  /-- A line tells the offset and the label of its instruction, and ends in its only line feed. -/
  entries : List.Forall₂ (fun p line => Text.IsEntry p.1 p.2.label line) d.instructions lines

/-- **The bytecode of every finished recording** is a row of nodes, in which each start tag tells
the number of words of its element.  Reading it from left to right meets all of its words, and its
listing has a line for each instruction. -/
theorem Recording.nodes_of_madeBy {t : Recording} {calls : List SpelledCall}
    (h : t.MadeBy calls) :
    ∃ (d : Document) (lines : List String), t.compile = .ok d ∧ d.Listed lines := by
  obtain ⟨draft, d, hcalls, _, hcompile, hnames, hspells⟩ := h.compile
  have hsound : d.names.Sound := hnames ▸ (Draft.names_sound hcalls : (draft.map _).names.Sound)
  obtain ⟨lines, hlines, hlisting, hentries⟩ := hspells.listing hsound
  have hcode : d.code.toList = Instruction.allWords (Tree.instructionsAll draft.trees) := by
    rw [hspells.code]
  refine ⟨d, lines, hcompile,
    { nodes := ?_, elements := ?_, words := ?_, size := Document.readableSize_eq hspells.code,
      rows := hlines, listing := hlisting, entries := hentries }⟩
  · rw [hcode]
    exact Tree.SoundAll.nodes _ hspells.sound
  · intro p name span hp
    rw [Document.instructions_eq hspells.code] at hp
    have := Tree.SoundAll.spanned _ hspells.sound [] [] p name span hp
    rwa [List.nil_append, List.append_nil, ← hcode] at this
  · rw [Document.instructions_eq hspells.code, Instruction.map_snd_placedAll, hcode]

theorem Recording.card_nodes : card.MadeBy cardCalls ∧
    ∃ (d : Document) (lines : List String), card.compile = .ok d ∧ d.Listed lines :=
  ⟨card_madeBy, nodes_of_madeBy card_madeBy⟩

end HtmlTape
