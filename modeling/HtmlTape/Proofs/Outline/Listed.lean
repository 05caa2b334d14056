import HtmlTape.Outline.Parse
import Mathlib.Data.List.Basic
import Mathlib.Data.List.Induction

/-!
# Outlines line by line

What an outline describes, told without a stack of open elements.  Each line that says something has
a depth and describes a node; the line may be as deep as the one before it, or one deeper if that
one describes an element (`deepest`).  An outline can be read exactly if all of its lines keep to
that, and then the nodes of its forest, listed from the root on, are those of its lines at the
depths of the lines.  Else the first line that does not keep to it is found, whatever comes behind
it (`parse_iff`).

The forest that is being read is listed like a finished one (`Forest.listing`): closing elements
does not change the listing, and a line adds its node at the end.
-/

namespace HtmlTape.Outline

theorem takeWhile_eq_and_dropWhile_eq {α : Type} {p : α → Bool} {as rest : List α}
    (has : ∀ a ∈ as, p a = true) (hrest : ∀ a ∈ rest.head?, p a = false) :
    (as ++ rest).takeWhile p = as ∧ (as ++ rest).dropWhile p = rest := by
  rw [List.takeWhile_append_of_pos has, List.dropWhile_append_of_pos has]
  cases rest with
  | nil => exact ⟨List.append_nil as, rfl⟩
  | cons a rest =>
    have ha : ¬ p a = true := by simp [hrest a rfl]
    rw [List.takeWhile_cons_of_neg ha, List.dropWhile_cons_of_neg ha]
    exact ⟨List.append_nil as, rfl⟩

/-! ### Listing a forest -/

/-- **Induction over a list of nodes**, with the children of its first one. -/
@[elab_as_elim]
theorem Node.forest_induction {motive : List Node → Prop} (nil : motive [])
    (doctype : ∀ rest, motive rest → motive (.doctype :: rest))
    (text : ∀ value rest, motive rest → motive (.text value :: rest))
    (raw : ∀ value rest, motive rest → motive (.raw value :: rest))
    (element : ∀ name attributes children rest, motive children → motive rest →
      motive (.element name attributes children :: rest)) :
    ∀ nodes, motive nodes
  | [] => nil
  | .doctype :: rest => doctype rest (forest_induction nil doctype text raw element rest)
  | .text value :: rest => text value rest (forest_induction nil doctype text raw element rest)
  | .raw value :: rest => raw value rest (forest_induction nil doctype text raw element rest)
  | .element name attributes children :: rest =>
    element name attributes children rest (forest_induction nil doctype text raw element children)
      (forest_induction nil doctype text raw element rest)

namespace Node

def isElement : Node → Bool
  | element .. => true
  | doctype | text _ | raw _ => false

mutual

/-- The nodes of a tree from its root on, each with its depth and without its children. -/
def listing (depth : Nat) : Node → List (Nat × Node)
  | .doctype => [(depth, .doctype)]
  | .text value => [(depth, .text value)]
  | .raw value => [(depth, .raw value)]
  | .element name attributes children =>
    (depth, .element name attributes []) :: listingAll (depth + 1) children

def listingAll (depth : Nat) : List Node → List (Nat × Node)
  | [] => []
  | node :: nodes => node.listing depth ++ listingAll depth nodes

end

theorem listingAll_append (depth : Nat) (as bs : List Node) :
    listingAll depth (as ++ bs) = listingAll depth as ++ listingAll depth bs := by
  induction as with
  | nil => rfl
  | cons a as ih => rw [List.cons_append, listingAll, ih, listingAll, List.append_assoc]

theorem listingAll_singleton (depth : Nat) (node : Node) :
    listingAll depth [node] = node.listing depth := List.append_nil _

theorem le_of_mem_listingAll (nodes : List Node) : ∀ {depth : Nat} {row : Nat × Node},
    row ∈ listingAll depth nodes → depth ≤ row.1 := by
  induction nodes using forest_induction with
  | nil => intro depth row h; cases h
  | doctype rest ih | text value rest ih | raw value rest ih =>
    intro depth row h
    rcases List.mem_cons.1 h with rfl | h
    · exact Nat.le_refl depth
    · exact ih h
  | element name attributes children rest ih₁ ih₂ =>
    intro depth row h
    rcases List.mem_append.1 h with h | h
    · rcases List.mem_cons.1 h with rfl | h
      · exact Nat.le_refl depth
      · exact Nat.le_of_succ_le (ih₁ h)
    · exact ih₂ h

theorem head?_listingAll {depth : Nat} {nodes : List Node} :
    ∀ row ∈ (listingAll depth nodes).head?, row.1 = depth := by
  cases nodes with
  | nil => intro row h; cases h
  | cons node rest =>
    intro row h
    cases node <;> cases h <;> rfl

/-- What is deeper than the roots comes before the next root. -/
theorem takeWhile_listingAll (depth : Nat) (children rest : List Node) :
    (listingAll (depth + 1) children ++ listingAll depth rest).takeWhile
      (fun row => decide (depth < row.1)) = listingAll (depth + 1) children := by
  have hinside : ∀ row ∈ listingAll (depth + 1) children, decide (depth < row.1) = true :=
    fun row h => decide_eq_true (le_of_mem_listingAll children h)
  have hroot : ∀ row ∈ (listingAll depth rest).head?, decide (depth < row.1) = false :=
    fun row h => decide_eq_false (Nat.not_lt.2 (Nat.le_of_eq (head?_listingAll row h)))
  exact (takeWhile_eq_and_dropWhile_eq hinside hroot).1

/-- **A forest is known from its listing.** -/
theorem listingAll_inj (as : List Node) : ∀ {depth : Nat} {bs : List Node},
    listingAll depth as = listingAll depth bs → as = bs := by
  induction as using forest_induction with
  | nil =>
    intro depth bs h
    cases bs with
    | nil => rfl
    | cons b bs => cases b <;> cases h
  | doctype rest ih | text value rest ih | raw value rest ih =>
    intro depth bs h
    cases bs with
    | nil => cases h
    | cons b bs =>
      cases b <;> injection h with hrow hrest <;> cases hrow
      rw [ih hrest]
  | element name attributes children rest ih₁ ih₂ =>
    intro depth bs h
    cases bs with
    | nil => cases h
    | cons b bs =>
      cases b <;> injection h with hrow hrows <;> cases hrow
      rename_i children'
      have hchildren : listingAll (depth + 1) children = listingAll (depth + 1) children' := by
        rw [← takeWhile_listingAll depth children rest,
          ← takeWhile_listingAll depth children' bs]
        exact congrArg _ hrows
      change listingAll (depth + 1) children ++ listingAll depth rest =
        listingAll (depth + 1) children' ++ listingAll depth bs at hrows
      rw [hchildren] at hrows
      rw [ih₁ hchildren, ih₂ (List.append_cancel_left hrows)]

end Node

/-! ### Listing a forest that is being read -/

/-- The nodes inside of open elements, and the elements themselves. -/
def openListing : List OpenNode → List (Nat × Node)
  | [] => []
  | o :: outer =>
    openListing outer ++ (outer.length, .element o.name o.attributes []) ::
      Node.listingAll (outer.length + 1) o.children

namespace Forest

variable {f : Forest}

/-- The nodes that were read so far, in order. -/
def listing (f : Forest) : List (Nat × Node) :=
  Node.listingAll 0 f.roots ++ openListing f.opened

theorem opened_addNode (f : Forest) (node : Node) :
    (f.addNode node).opened.length = f.opened.length := by
  rw [addNode]
  cases f.opened <;> rfl

/-- A node is added at the depth that the open elements ask for. -/
theorem listing_addNode (f : Forest) (node : Node) :
    (f.addNode node).listing = f.listing ++ node.listing f.opened.length := by
  obtain ⟨roots, opened⟩ := f
  cases opened with
  | nil =>
    simp only [addNode, listing, openListing, Node.listingAll_append, Node.listingAll_singleton,
      List.append_nil]
    rfl
  | cons o outer =>
    simp only [addNode, listing, openListing, Node.listingAll_append, Node.listingAll_singleton,
      List.append_assoc, List.cons_append]
    rfl

theorem opened_closeInnermost (f : Forest) :
    f.closeInnermost.opened.length = f.opened.length - 1 := by
  obtain ⟨roots, opened⟩ := f
  cases opened with
  | nil => rfl
  | cons o outer => exact opened_addNode _ _

/-- **Closing an element does not change what is listed.** -/
theorem listing_closeInnermost (f : Forest) : f.closeInnermost.listing = f.listing := by
  obtain ⟨roots, opened⟩ := f
  cases opened with
  | nil => rfl
  | cons o outer =>
    refine (listing_addNode _ _).trans ?_
    rw [listing, listing, openListing, List.append_assoc]
    rfl

theorem close_eq (n : Nat) : ∀ f : Forest,
    (f.close n).opened.length = f.opened.length - n ∧ (f.close n).listing = f.listing := by
  induction n with
  | zero => exact fun f => ⟨rfl, rfl⟩
  | succ n ih =>
    intro f
    obtain ⟨hlength, hlisting⟩ := ih f.closeInnermost
    rw [close, hlength, hlisting, opened_closeInnermost, listing_closeInnermost]
    exact ⟨by omega, rfl⟩

theorem opened_closeTo {depth : Nat} (h : depth ≤ f.opened.length) :
    (f.closeTo depth).opened.length = depth := by
  rw [closeTo, (close_eq _ f).1]
  omega

theorem listing_closeTo (f : Forest) (depth : Nat) : (f.closeTo depth).listing = f.listing :=
  (close_eq _ f).2

/-- The finished forest has the listing of what was read. -/
theorem listingAll_nodes (f : Forest) : Node.listingAll 0 f.nodes = f.listing := by
  have hopened : (f.closeTo 0).opened = [] :=
    List.eq_nil_of_length_eq_zero (opened_closeTo (Nat.zero_le _))
  rw [← listing_closeTo f 0, listing, hopened]
  exact (List.append_nil _).symm

theorem addLine_eq {node : Node} (h : ∀ name attributes children,
      node = .element name attributes children → children = []) :
    (f.addLine node).listing = f.listing ++ [(f.opened.length, node)] ∧
      (f.addLine node).opened.length = f.opened.length + if node.isElement then 1 else 0 := by
  cases node with
  | element name attributes children =>
    obtain rfl := h name attributes children rfl
    exact ⟨(List.append_assoc _ _ _).symm, rfl⟩
  | doctype | text value | raw value => exact ⟨f.listing_addNode _, f.opened_addNode _⟩

end Forest

/-! ### Lines -/

/-- The line without the blanks at its end and without its indentation. -/
def body (line : List Char) : List Char :=
  (Text.trimEnd line).dropWhile (· == ' ')

def indent (line : List Char) : Nat :=
  ((Text.trimEnd line).takeWhile (· == ' ')).length

def depth (line : List Char) : Nat :=
  indent line / 2

/-- The line is neither empty nor a remark. -/
def Significant (line : List Char) : Prop :=
  body line ≠ [] ∧ (body line).head? ≠ some '#'

instance (line : List Char) : Decidable (Significant line) :=
  inferInstanceAs (Decidable (_ ∧ _))

def isTag (line : List Char) : Bool :=
  match lineNode (body line) with
  | .ok node => node.isElement
  | .error _ => false

/-- How deep a line may be that comes behind other lines: as deep as the last of them that says
something, and one deeper if that one describes an element. -/
def deepest (before : List (List Char)) : Nat :=
  match (before.filter Significant).getLast? with
  | some line => depth line + if isTag line then 1 else 0
  | none => 0

/-- The line may come behind the lines. -/
structure Allowed (before : List (List Char)) (line : List Char) : Prop where
  even : indent line % 2 = 0
  depth_le : depth line ≤ deepest before
  described : ∃ node, lineNode (body line) = .ok node

/-- What is wrong with a line behind other lines. -/
inductive Wrong (before : List (List Char)) (line : List Char) : LineFault → Prop
  | oddIndent (h : indent line % 2 ≠ 0) : Wrong before line (.oddIndent (indent line))
  | deepIndent (heven : indent line % 2 = 0) (h : deepest before < depth line) :
      Wrong before line (.deepIndent (depth line) (deepest before))
  | malformed (heven : indent line % 2 = 0) (hdepth : depth line ≤ deepest before)
      {error : LineError} (h : lineNode (body line) = .error error) :
      Wrong before line (.malformed error)

/-- All lines that say something may come where they come. -/
def InOrder (lines : List (List Char)) : Prop :=
  ∀ before line after, lines = before ++ line :: after → Significant line → Allowed before line

def described (lines : List (List Char)) : List (Nat × Except LineError Node) :=
  (lines.filter Significant).map fun line => (depth line, lineNode (body line))

section Behind

variable {before after : List (List Char)} {line : List Char} {fault : LineFault}

theorem allowed_or_wrong (before : List (List Char)) (line : List Char) :
    Allowed before line ∨ ∃ fault, Wrong before line fault := by
  by_cases heven : indent line % 2 = 0
  · by_cases hdepth : depth line ≤ deepest before
    · cases hnode : lineNode (body line) with
      | ok node => exact .inl ⟨heven, hdepth, node, hnode⟩
      | error error => exact .inr ⟨_, .malformed heven hdepth hnode⟩
    · exact .inr ⟨_, .deepIndent heven (Nat.lt_of_not_le hdepth)⟩
  · exact .inr ⟨_, .oddIndent heven⟩

theorem Wrong.not_allowed (h : Wrong before line fault) : ¬ Allowed before line := by
  intro hallowed
  cases h with
  | oddIndent h => exact h hallowed.even
  | deepIndent _ h => exact Nat.not_le_of_lt h hallowed.depth_le
  | malformed _ _ h =>
    obtain ⟨node, hnode⟩ := hallowed.described
    cases h.symm.trans hnode

theorem deepest_concat (before : List (List Char)) (line : List Char) :
    deepest (before ++ [line]) =
      if Significant line then depth line + if isTag line then 1 else 0 else deepest before := by
  by_cases h : Significant line <;> simp [deepest, h]

theorem described_concat (before : List (List Char)) (line : List Char) :
    described (before ++ [line]) = described before ++
      if Significant line then [(depth line, lineNode (body line))] else [] := by
  by_cases h : Significant line <;> simp [described, h]

theorem InOrder.of_append (h : InOrder (before ++ after)) : InOrder before := by
  rintro b line a rfl
  exact h b line (a ++ after) (by simp)

theorem inOrder_concat_iff : InOrder (before ++ [line]) ↔
    InOrder before ∧ (Significant line → Allowed before line) := by
  constructor
  · exact fun h => ⟨h.of_append, h before line [] rfl⟩
  · rintro ⟨hbefore, hline⟩ b l a heq
    rcases List.eq_nil_or_concat' a with rfl | ⟨a, last, rfl⟩
    · obtain ⟨rfl, hl⟩ := List.append_inj' heq rfl
      cases hl
      exact hline
    · rw [← List.cons_append, ← List.append_assoc] at heq
      exact hbefore b l a (List.append_inj' heq rfl).1

end Behind

/-! ### Reading lines -/

/-- The line of an element says nothing of its children. -/
theorem lineNode_children {line : List Char} {name : String}
    {attributes : List (String × Option String)} {children : List Node}
    (h : lineNode line = .ok (.element name attributes children)) : children = [] := by
  have hmap : ∀ {ε α : Type} {x : Except ε α} {f : α → Node},
      x.map f = .ok (.element name attributes children) →
        ∃ a, f a = .element name attributes children := by
    intro ε α x f hx
    cases x with
    | error e => cases hx
    | ok a => exact ⟨a, Except.ok.inj hx⟩
  rw [lineNode.eq_def] at h
  split at h
  · obtain ⟨_, ha⟩ := hmap h
    cases ha
  · obtain ⟨_, ha⟩ := hmap h
    cases ha
  · split at h
    · rw [tagNode] at h
      split at h
      · cases h
      · obtain ⟨_, ha⟩ := hmap h
        cases ha
        rfl
    · cases h
  · split at h <;> cases h

/-- What was read so far is what the lines before describe, and as many elements are open as the
next line may be deep. -/
structure Forest.Reads (f : Forest) (before : List (List Char)) : Prop where
  opened : f.opened.length = deepest before
  listing : f.listing.map (Prod.map id Except.ok) = described before

theorem Forest.reads_empty : Forest.empty.Reads [] := ⟨rfl, rfl⟩

namespace Forest.Reads

variable {f : Forest} {before lines : List (List Char)} {line : List Char} {fault : LineFault}

theorem isComment_iff (line : List Char) : isComment (body line) ↔ ¬ Significant line := by
  unfold isComment Significant
  cases body line with
  | nil => simp
  | cons c rest => simp

theorem of_not_significant (h : f.Reads before) (hline : ¬ Significant line) :
    readLine f line = .ok f ∧ f.Reads (before ++ [line]) := by
  refine ⟨?_, ?_, ?_⟩
  · show (if isComment (body line) then _ else _) = _
    rw [if_pos ((isComment_iff line).2 hline)]
  · rw [deepest_concat, if_neg hline, h.opened]
  · rw [described_concat, if_neg hline, List.append_nil, h.listing]

/-- **A line that may come is read**: elements are closed to make room for its node. -/
theorem of_allowed (h : f.Reads before) (hline : Significant line)
    (hallowed : Allowed before line) :
    ∃ f', readLine f line = .ok f' ∧ f'.Reads (before ++ [line]) := by
  obtain ⟨heven, hdepth, node, hnode⟩ := hallowed
  have hroom : depth line ≤ f.opened.length := h.opened ▸ hdepth
  have hnone : ∀ name attributes children,
      node = .element name attributes children → children = [] :=
    fun _ _ _ hn => lineNode_children (hn ▸ hnode)
  obtain ⟨hlisting, hopened⟩ := (f.closeTo (depth line)).addLine_eq hnone
  refine ⟨(f.closeTo (depth line)).addLine node, ?_, ?_, ?_⟩
  · have hcomment : ¬ isComment (body line) := fun h => (isComment_iff line).1 h hline
    show (if isComment (body line) then _ else if indent line % 2 ≠ 0 then _ else
      if f.opened.length < depth line then _ else _) = _
    rw [if_neg hcomment, if_neg (not_not_intro heven), if_neg (Nat.not_lt.2 hroom)]
    rw [body] at hnode
    rw [hnode]
    rfl
  · rw [hopened, opened_closeTo hroom, deepest_concat, if_pos hline, isTag, hnode]
  · rw [hlisting, listing_closeTo, opened_closeTo hroom, described_concat, if_pos hline,
      List.map_append, h.listing, hnode]
    rfl

/-- **A line that may not come is found**, and what is wrong with it is told. -/
theorem of_wrong (h : f.Reads before) (hline : Significant line)
    (hwrong : Wrong before line fault) : readLine f line = .error fault := by
  have hcomment : ¬ isComment (body line) := fun h => (isComment_iff line).1 h hline
  show (if isComment (body line) then _ else if indent line % 2 ≠ 0 then _ else
    if f.opened.length < depth line then _ else _) = _
  rw [if_neg hcomment, h.opened]
  cases hwrong with
  | oddIndent hodd =>
    rw [if_pos hodd]
    rfl
  | deepIndent heven hdeep =>
    rw [if_neg (not_not_intro heven), if_pos hdeep]
    rfl
  | malformed heven hdepth herror =>
    rw [if_neg (not_not_intro heven), if_neg (Nat.not_lt.2 hdepth)]
    rw [body] at herror
    rw [herror]

theorem readLine_eq (h : f.Reads before) (hline : Significant line → Allowed before line) :
    ∃ f', readLine f line = .ok f' ∧ f'.Reads (before ++ [line]) := by
  by_cases hsignificant : Significant line
  · exact h.of_allowed hsignificant (hline hsignificant)
  · exact ⟨f, h.of_not_significant hsignificant⟩

/-- **Lines that are in order are read.** -/
theorem readLines_eq_ok (lines : List (List Char)) : ∀ {f : Forest} {before : List (List Char)}
    (number : Nat), f.Reads before → InOrder (before ++ lines) →
    ∃ f', readLines f number lines = .ok f' ∧ f'.Reads (before ++ lines) := by
  induction lines with
  | nil =>
    intro f before number h _
    rw [List.append_nil]
    exact ⟨f, rfl, h⟩
  | cons line lines ih =>
    intro f before number h horder
    obtain ⟨f₁, hline, h₁⟩ := h.readLine_eq (horder before line lines rfl)
    rw [List.append_cons] at horder ⊢
    obtain ⟨f₂, hlines, h₂⟩ := ih (number + 1) h₁ horder
    refine ⟨f₂, ?_, h₂⟩
    rw [readLines, hline]
    exact hlines

/-- **The first line that is not in order is found**, whatever comes behind it. -/
theorem readLines_eq_error (first rest : List (List Char)) : ∀ {f : Forest}
    {before : List (List Char)} (number : Nat), f.Reads before → InOrder (before ++ first) →
    Significant line → Wrong (before ++ first) line fault →
    readLines f number (first ++ line :: rest) = .error ⟨number + first.length, fault⟩ := by
  induction first with
  | nil =>
    intro f before number h _ hline hwrong
    rw [List.append_nil] at hwrong
    rw [List.nil_append, readLines, h.of_wrong hline hwrong]
    rfl
  | cons l first ih =>
    intro f before number h horder hline hwrong
    obtain ⟨f₁, hl, h₁⟩ := h.readLine_eq (horder before l first rfl)
    rw [List.append_cons] at horder hwrong
    rw [List.cons_append, readLines, hl]
    refine (ih (number + 1) h₁ horder hline hwrong).trans ?_
    rw [List.length_cons, Nat.add_assoc, Nat.add_comm 1]

end Forest.Reads

/-! ### Reading an outline -/

theorem inOrder_or_wrong (lines : List (List Char)) : InOrder lines ∨
    ∃ before line after fault, lines = before ++ line :: after ∧ InOrder before ∧
      Significant line ∧ Wrong before line fault := by
  induction lines using List.reverseRecOn with
  | nil => exact .inl fun _ _ _ h => absurd h (by simp)
  | append_singleton lines line ih =>
    rcases ih with horder | ⟨b, l, a, fault, rfl, hb, hl, hwrong⟩
    · by_cases hline : Significant line
      · rcases allowed_or_wrong lines line with hallowed | ⟨fault, hwrong⟩
        · exact .inl (inOrder_concat_iff.2 ⟨horder, fun _ => hallowed⟩)
        · exact .inr ⟨lines, line, [], fault, rfl, horder, hline, hwrong⟩
      · exact .inl (inOrder_concat_iff.2 ⟨horder, fun h => absurd h hline⟩)
    · refine .inr ⟨b, l, a ++ [line], fault, ?_, hb, hl, hwrong⟩
      rw [List.append_assoc, List.cons_append]

section Parse

variable {source : String}

theorem parse_of_inOrder (h : InOrder (Text.lines source.toList)) :
    ∃ nodes, parse source = .ok nodes ∧
      (Node.listingAll 0 nodes).map (Prod.map id Except.ok) =
        described (Text.lines source.toList) := by
  obtain ⟨f, hread, hf⟩ :=
    Forest.reads_empty.readLines_eq_ok (Text.lines source.toList) 1 h
  refine ⟨f.nodes, ?_, ?_⟩
  · rw [parse, hread]
    rfl
  · rw [f.listingAll_nodes]
    exact hf.listing

theorem parse_of_wrong {before after : List (List Char)} {line : List Char} {fault : LineFault}
    (hlines : Text.lines source.toList = before ++ line :: after) (hbefore : InOrder before)
    (hline : Significant line) (hwrong : Wrong before line fault) :
    parse source = .error ⟨before.length + 1, fault⟩ := by
  have herror := Forest.reads_empty.readLines_eq_error before after 1 hbefore hline hwrong
  rw [parse, hlines, herror, Nat.add_comm]
  rfl

end Parse

/-- **An outline is read as its lines say.**  It is read exactly if all lines that say something are
in order; then its forest is the one that has the nodes of these lines in its listing, each at the
depth of its line.  An error is the number of the first line that is out of order, and what is wrong
with that line. -/
theorem parse_iff (source : String) :
    ((∃ nodes, parse source = .ok nodes) ↔ InOrder (Text.lines source.toList)) ∧
    (∀ nodes, parse source = .ok nodes ↔ InOrder (Text.lines source.toList) ∧
      (Node.listingAll 0 nodes).map (Prod.map id Except.ok) =
        described (Text.lines source.toList)) ∧
    ∀ number fault, parse source = .error ⟨number, fault⟩ ↔
      ∃ before line after, Text.lines source.toList = before ++ line :: after ∧
        InOrder before ∧ Significant line ∧ Wrong before line fault ∧
          number = before.length + 1 := by
  have hinjective : Function.Injective (List.map (Prod.map id Except.ok) :
      List (Nat × Node) → List (Nat × Except LineError Node)) :=
    List.map_injective_iff.2 fun ⟨_, _⟩ ⟨_, _⟩ h => by cases h; rfl
  rcases inOrder_or_wrong (Text.lines source.toList) with
    horder | ⟨before, line, after, fault, hlines, hbefore, hline, hwrong⟩
  · obtain ⟨nodes, hparse, hlisting⟩ := parse_of_inOrder horder
    refine ⟨⟨fun _ => horder, fun _ => ⟨nodes, hparse⟩⟩, fun nodes' => ⟨?_, ?_⟩,
      fun number fault => ⟨?_, ?_⟩⟩
    · intro h
      cases hparse.symm.trans h
      exact ⟨horder, hlisting⟩
    · rintro ⟨-, h⟩
      rw [hparse, Node.listingAll_inj nodes (hinjective (hlisting.trans h.symm))]
    · intro h
      cases hparse.symm.trans h
    · rintro ⟨before, line, after, hlines, -, hline, hwrong, -⟩
      exact absurd (horder before line after hlines hline) hwrong.not_allowed
  · have hparse := parse_of_wrong hlines hbefore hline hwrong
    have hnot : ¬ InOrder (Text.lines source.toList) := fun horder =>
      hwrong.not_allowed (horder before line after hlines hline)
    refine ⟨⟨?_, fun h => absurd h hnot⟩, fun nodes => ⟨?_, fun h => absurd h.1 hnot⟩,
      fun number fault' => ⟨?_, ?_⟩⟩
    · rintro ⟨nodes, h⟩
      cases hparse.symm.trans h
    · intro h
      cases hparse.symm.trans h
    · intro h
      cases hparse.symm.trans h
      exact ⟨before, line, after, hlines, hbefore, hline, hwrong, rfl⟩
    · rintro ⟨before', line', after', hlines', hbefore', hline', hwrong', rfl⟩
      exact parse_of_wrong hlines' hbefore' hline' hwrong'

/-- A text has nothing inside of it, and the line behind the bad one is not looked at. -/
example : parse "\"a\"\n\n  <b>\nc" = .error ⟨3, .deepIndent 1 0⟩ := rfl

end HtmlTape.Outline
