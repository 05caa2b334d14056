import HtmlTape.Proofs.Draft.Item
import HtmlTape.Proofs.Tape.Layout
import HtmlTape.Recorder.Level

/-!
# What references show

A stock is what is complete of a recording: the records that can be referred to, the pool, and
the offset of the next word.  `Shows k limit refs items` says that the references `refs` stand for
the items `items`: each leads to a complete record that ends at `limit` or before, and whose own
references, if it is an element, show the items inside of it.  The references of a fragment stand
in the place of the fragment.

A stock only grows while a level is open (`Stock.Within`), and what references show stays as it
is (`Shows.mono`).
-/

namespace HtmlTape

/-! ### Quotes -/

/-- A text together with its range of a pool. -/
structure Quote where
  literal : Literal
  text : String

def Quote.In (q : Quote) (pool : String) : Prop :=
  ∃ before after, pool = before ++ q.text ++ after ∧
    q.literal = ⟨before.utf8ByteSize, q.text.utf8ByteSize⟩

theorem Quote.In.append {q : Quote} {pool : String} (h : q.In pool) (s : String) :
    q.In (pool ++ s) := by
  obtain ⟨before, after, rfl, hl⟩ := h
  exact ⟨before, after ++ s, String.append_assoc, hl⟩

theorem Quote.In.read? {q : Quote} {pool : String} (h : q.In pool) :
    q.literal.read? pool = some q.text := by
  obtain ⟨before, after, rfl, hl⟩ := h
  rw [hl]
  exact Literal.read?_append before q.text after

def Mark.value? {τ : Type} : Mark τ → Option τ
  | text value | raw value | valued _ value => some value
  | doctype | boolean _ => none

/-- The leaf for a mark whose texts are ranges of the pool. -/
def Mark.leaf : Mark Literal → Leaf
  | text l => .text l
  | raw l => .raw l
  | doctype => .doctype
  | valued name l => .valued name l
  | boolean name => .boolean name

def Mark.quoted (m : Mark Quote) : Leaf := (m.map Quote.literal).leaf

theorem Mark.isAttribute_quoted (m : Mark Quote) : m.quoted.isAttribute = m.isAttribute := by
  cases m <;> rfl

def Mark.at (offset : Nat) (m : Mark String) : Mark Quote :=
  m.map fun s => ⟨⟨offset, s.utf8ByteSize⟩, s⟩

/-! ### Stocks -/

/-- What is complete of a recording. -/
structure Stock where
  /-- The complete records with their offsets. -/
  records : List (Nat × Block)
  pool : String
  /-- The offset of the next word. -/
  here : Nat

namespace Stock

def empty : Stock := ⟨[], "", 0⟩

def enter (k : Stock) (scope : Scope) : Stock :=
  { k with here := k.here + scope.head.size }

/-- The stock after further blocks and further literal text. -/
def grow (k : Stock) (blocks : List Block) (pool : String) : Stock :=
  ⟨k.records ++ Block.placedAll k.here blocks, k.pool ++ pool, k.here + Block.sizeAll blocks⟩

theorem grow_grow (k : Stock) (as bs : List Block) (p q : String) :
    (k.grow as p).grow bs q = k.grow (as ++ bs) (p ++ q) := by
  simp only [grow, Block.placedAll_append, Block.sizeAll_append, List.append_assoc,
    String.append_assoc, Nat.add_assoc]

/-- The second stock has all of the first. -/
structure Within (k k' : Stock) : Prop where
  records : ∀ p ∈ k.records, p ∈ k'.records
  pool : ∃ s, k'.pool = k.pool ++ s
  here : k.here ≤ k'.here

theorem Within.trans {a b c : Stock} (h : a.Within b) (g : b.Within c) : a.Within c := by
  obtain ⟨s, hs⟩ := h.pool
  obtain ⟨t, ht⟩ := g.pool
  exact ⟨fun p hp => g.records p (h.records p hp), ⟨s ++ t, by rw [ht, hs, String.append_assoc]⟩,
    Nat.le_trans h.here g.here⟩

theorem within_grow (k : Stock) (blocks : List Block) (pool : String) :
    k.Within (k.grow blocks pool) :=
  ⟨fun _ hp => List.mem_append_left _ hp, ⟨pool, rfl⟩, Nat.le_add_right _ _⟩

theorem within_enter (k : Stock) (scope : Scope) : k.Within (k.enter scope) :=
  ⟨fun _ hp => hp, ⟨"", String.append_empty.symm⟩, Nat.le_add_right _ _⟩

/-- A closed element has all that the element had while it was open. -/
theorem within_element (k : Stock) (name : ElementName) (blocks : List Block) (refs : List Nat)
    (pool : String) : ((k.enter (.element name)).grow blocks pool).Within
      (k.grow [.element name blocks refs] pool) := by
  refine ⟨fun p hp => ?_, ⟨"", String.append_empty.symm⟩, ?_⟩
  · refine (List.mem_append.1 hp).elim (List.mem_append_left _) fun hp => ?_
    exact List.mem_append_right _ (Block.mem_placedAll_singleton.2 (.inr hp))
  · show k.here + 3 + Block.sizeAll blocks ≤ k.here + Block.sizeAll _
    rw [Block.sizeAll_cons, Block.size_element]
    omega

end Stock

theorem Quote.In.mono {q : Quote} {k k' : Stock} (h : q.In k.pool) (hk : k.Within k') :
    q.In k'.pool := by
  obtain ⟨s, hs⟩ := hk.pool
  rw [hs]
  exact h.append s

/-! ### What references show -/

/-- The references stand for the items, and lead to records that end at `limit` or before. -/
inductive Shows (k : Stock) : Nat → List Ref → List (Item Quote) → Prop
  | nil {limit : Nat} : Shows k limit [] []
  | mark {limit o : Nat} {m : Mark Quote} {refs : List Ref} {items : List (Item Quote)}
      (hmem : (o, Block.leaf m.quoted) ∈ k.records)
      (hle : o + (Block.leaf m.quoted).size ≤ limit) (hin : ∀ q ∈ m.value?, q.In k.pool)
      (rest : Shows k limit refs items) :
      Shows k limit (⟨o, m.isAttribute⟩ :: refs) (.mark m :: items)
  | element {limit o : Nat} {name : ElementName} {blocks : List Block} {inner refs : List Ref}
      {children items : List (Item Quote)}
      (hmem : (o, Block.element name blocks (inner.map Ref.record)) ∈ k.records)
      (hle : o + (Block.element name blocks (inner.map Ref.record)).size ≤ limit)
      (hvoid : name.kind.isVoid → ∀ ref ∈ inner, ref.isAttribute)
      (inside : Shows k (o + 3 + Block.sizeAll blocks) inner children)
      (rest : Shows k limit refs items) :
      Shows k limit (⟨o, false⟩ :: refs) (.element name children :: items)
  | fragment {limit : Nat} {inner refs : List Ref} {children items : List (Item Quote)}
      (inside : Shows k limit inner children) (rest : Shows k limit refs items) :
      Shows k limit (inner ++ refs) (.fragment children :: items)

namespace Shows

variable {k k' : Stock} {limit limit' : Nat} {refs refs' : List Ref}
  {items items' : List (Item Quote)}

/-- **What references show stays as it is** when the stock grows. -/
theorem mono (h : Shows k limit refs items) (hk : k.Within k') (hl : limit ≤ limit') :
    Shows k' limit' refs items := by
  induction h generalizing limit' with
  | nil => exact .nil
  | mark hmem hle hin _ ih =>
    exact .mark (hk.records _ hmem) (Nat.le_trans hle hl) (fun q hq => (hin q hq).mono hk) (ih hl)
  | element hmem hle hvoid _ _ ih₁ ih₂ =>
    exact .element (hk.records _ hmem) (Nat.le_trans hle hl) hvoid (ih₁ (Nat.le_refl _)) (ih₂ hl)
  | fragment _ _ ih₁ ih₂ => exact .fragment (ih₁ hl) (ih₂ hl)

theorem append (h : Shows k limit refs items) (h' : Shows k limit refs' items') :
    Shows k limit (refs ++ refs') (items ++ items') := by
  induction h with
  | nil => exact h'
  | mark hmem hle hin _ ih => exact .mark hmem hle hin (ih h')
  | element hmem hle hvoid inside _ _ ih => exact .element hmem hle hvoid inside (ih h')
  | fragment inside _ _ ih =>
    rw [List.append_assoc]
    exact .fragment inside (ih h')

/-- The references lead to complete leaves and elements that end at the limit or before. -/
theorem refers (h : Shows k limit refs items) : ∀ ref ∈ refs, ∃ b,
    (ref.record, b) ∈ k.records ∧ b.isFragment = false ∧ ref.record + b.size ≤ limit := by
  induction h with
  | nil => intro ref href; cases href
  | mark hmem hle _ _ ih =>
    intro ref href
    rcases List.mem_cons.1 href with rfl | href
    · exact ⟨_, hmem, rfl, hle⟩
    · exact ih ref href
  | element hmem hle _ _ _ _ ih =>
    intro ref href
    rcases List.mem_cons.1 href with rfl | href
    · exact ⟨_, hmem, rfl, hle⟩
    · exact ih ref href
  | fragment _ _ ih₁ ih₂ =>
    intro ref href
    exact (List.mem_append.1 href).elim (ih₁ ref) (ih₂ ref)

theorem kinds (h : Shows k limit refs items) : ∀ ref ∈ refs, ∃ b,
    (ref.record, b) ∈ k.records ∧ b.isFragment = false ∧
      b.record.isAttribute = ref.isAttribute := by
  induction h with
  | nil => intro ref href; cases href
  | @mark _ _ m _ _ hmem _ _ _ ih =>
    intro ref href
    rcases List.mem_cons.1 href with rfl | href
    · exact ⟨_, hmem, rfl, m.isAttribute_quoted⟩
    · exact ih ref href
  | element hmem _ _ _ _ _ ih =>
    intro ref href
    rcases List.mem_cons.1 href with rfl | href
    · exact ⟨_, hmem, rfl, rfl⟩
    · exact ih ref href
  | fragment _ _ ih₁ ih₂ =>
    intro ref href
    exact (List.mem_append.1 href).elim (ih₁ ref) (ih₂ ref)

/-- The items have no trees exactly when all references are to attributes. -/
theorem treesAll_eq_nil_iff (h : Shows k limit refs items) :
    Item.treesAll items = [] ↔ ∀ ref ∈ refs, ref.isAttribute := by
  induction h with
  | nil => simp [Item.treesAll]
  | @mark _ _ m _ _ _ _ _ _ ih =>
    rw [Item.treesAll, List.append_eq_nil_iff, ih, List.forall_mem_cons]
    refine and_congr ?_ Iff.rfl
    cases m <;> simp [Item.trees, Mark.trees, Mark.isAttribute, Mark.attribute?]
  | element => simp [Item.treesAll, Item.trees]
  | fragment _ _ ih₁ ih₂ =>
    rw [Item.treesAll, List.append_eq_nil_iff, ih₂, Item.trees, ih₁, List.forall_mem_append]

end Shows

/-! ### Entries -/

/-- The entry leads to the record that it stands for: its references are one to the record itself,
or those of a fragment. -/
inductive Entry.Leads (records : List (Nat × Block)) : Entry → Prop
  | single {o : Nat} {b : Block} (hmem : (o, b) ∈ records) (hfragment : b.isFragment = false) :
    Leads records (.single o b.record.isAttribute)
  | fragment {o : Nat} {refs : List Ref}
      (hmem : (o, Block.fragment (refs.map Ref.record)) ∈ records) : Leads records ⟨o, refs⟩

theorem Entry.Leads.mono {records records' : List (Nat × Block)} {entry : Entry}
    (h : entry.Leads records) (hsub : ∀ p ∈ records, p ∈ records') : entry.Leads records' := by
  cases h with
  | single hmem hfragment => exact .single (hsub _ hmem) hfragment
  | fragment hmem => exact .fragment (hsub _ hmem)

/-- The entry stands for the item: it leads to its record, and its references show the item. -/
structure Entry.StandsFor (entry : Entry) (k : Stock) (item : Item Quote) : Prop where
  leads : entry.Leads k.records
  shows : Shows k k.here entry.refs [item]

theorem Entry.StandsFor.mono {entry : Entry} {k k' : Stock} {item : Item Quote}
    (h : entry.StandsFor k item) (hk : k.Within k') : entry.StandsFor k' item :=
  ⟨h.leads.mono hk.records, h.shows.mono hk hk.here⟩

end HtmlTape
