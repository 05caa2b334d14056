import HtmlTape.Proofs.Outline.Listed
import HtmlTape.Proofs.Outline.Quoted
import Mathlib.Data.List.Chain

/-!
# Printed outlines are read back

A forest is printed with one line for each node, indented by two blanks for each element around it
(`print`).  The line of a node is read as the node: the closing quote of an escaped text is the first
one that is found (`quotedText_escape`), and names without blanks end where they should
(`lineNode_printNode`).  Neither line feeds nor blanks at the ends of lines get lost, because escaped
text has none of the first and nodes end in none of the second (`lines_flatMap_append`).  The rows of
a listing are never more than one deeper than the row before, and only below an element
(`Node.isChain_listingAll`), so the printed lines are in order, and the forest that is read has the
listing that was printed (`parse_print`).
-/

namespace HtmlTape

/-! ### Lines with their ends -/

namespace Text

variable {line rest : List Char}

theorem split_ne_nil (separator : Char) (s : List Char) : split separator s ≠ [] := by
  cases s with
  | nil => exact List.cons_ne_nil _ _
  | cons c s =>
    rw [split]
    split
    · exact List.cons_ne_nil _ _
    · cases split separator s <;> exact List.cons_ne_nil _ _

theorem split_of_notMem {separator : Char} (h : separator ∉ line) :
    split separator line = [line] := by
  induction line with
  | nil => rfl
  | cons c line ih =>
    obtain ⟨hc, hline⟩ := not_or.1 (List.mem_cons.not.1 h)
    rw [split, if_neg (Ne.symm hc), ih hline]

theorem split_append_cons {separator : Char} (h : separator ∉ line) (rest : List Char) :
    split separator (line ++ separator :: rest) = line :: split separator rest := by
  induction line with
  | nil => exact if_pos rfl
  | cons c line ih =>
    obtain ⟨hc, hline⟩ := not_or.1 (List.mem_cons.not.1 h)
    rw [List.cons_append, split, if_neg (Ne.symm hc), ih hline]

theorem lines_append_cons (h : '\n' ∉ line) (rest : List Char) :
    lines (line ++ '\n' :: rest) = dropReturn line :: lines rest := by
  have hrest := split_ne_nil '\n' rest
  rw [lines, lines, split_append_cons h]
  cases hpieces : split '\n' rest with
  | nil => exact absurd hpieces hrest
  | cons piece pieces => rfl

theorem lines_of_notMem (h : '\n' ∉ line) (hne : line ≠ []) : lines line = [line] := by
  rw [lines, split_of_notMem h]
  exact if_neg fun hempty => hne (List.isEmpty_iff.1 hempty)

/-- **Lines that were written with their ends are read back**, and so is what follows them. -/
theorem lines_flatMap_append {written : List (List Char)}
    (h : ∀ line ∈ written, '\n' ∉ line ∧ line.getLast? ≠ some '\r') (rest : List Char) :
    lines (written.flatMap (· ++ ['\n']) ++ rest) = written ++ lines rest := by
  induction written with
  | nil => rfl
  | cons line written ih =>
    obtain ⟨⟨hfeed, hreturn⟩, hwritten⟩ := List.forall_mem_cons.1 h
    rw [List.flatMap_cons, List.append_assoc, List.append_assoc, List.singleton_append,
      lines_append_cons hfeed, ih hwritten, dropReturn, if_neg hreturn, List.cons_append]

end Text

namespace Outline

/-! ### Printing -/

/-- A text in quotes, with escapes for what cannot stand there itself. -/
def printQuoted (text : String) : List Char :=
  '"' :: (Text.escape text.toList ++ ['"'])

def printValue : Option String → List Char
  | none => []
  | some value => '=' :: printQuoted value

def printAttribute (a : String × Option String) : List Char :=
  ' ' :: (a.1.toList ++ printValue a.2)

def printNode : Node → List Char
  | .doctype => ['!', 'd', 'o', 'c', 't', 'y', 'p', 'e']
  | .text value => printQuoted value
  | .raw value => 'r' :: 'a' :: 'w' :: ' ' :: printQuoted value
  | .element name attributes _ =>
    '<' :: (name.toList ++ attributes.flatMap printAttribute ++ ['>'])

def printRow (row : Nat × Node) : List Char :=
  List.replicate (2 * row.1) ' ' ++ printNode row.2

def print (nodes : List Node) : String :=
  String.ofList (((Node.listingAll 0 nodes).map printRow).flatMap (· ++ ['\n']))

/-- The name can stand in a tag: it is not empty, and nothing in it ends the name of an attribute or
gets lost before one. -/
def IsName (name : String) : Prop :=
  name.toList ≠ [] ∧ ∀ c ∈ name.toList, Text.isBlank c = false ∧ c ≠ '='

-- The instance is given because there might be one that looks at all characters there are.
instance (name : String) : Decidable (IsName name) :=
  @instDecidableAnd _ _ inferInstance (List.decidableBAll _ name.toList)

def Node.IsNamed : Node → Prop
  | .element name attributes _ => IsName name ∧ ∀ a ∈ attributes, IsName a.1
  | .doctype | .text _ | .raw _ => True

instance : (node : Node) → Decidable node.IsNamed
  | .element _ _ _ => inferInstanceAs (Decidable (_ ∧ _))
  | .doctype | .text _ | .raw _ => .isTrue trivial

def Node.AllNamed (nodes : List Node) : Prop :=
  ∀ row ∈ Node.listingAll 0 nodes, row.2.IsNamed

instance (nodes : List Node) : Decidable (Node.AllNamed nodes) :=
  inferInstanceAs (Decidable (∀ row ∈ _, _))

/-! ### Quotes -/

theorem quotedText_printQuoted (text : String) (rest : List Char) :
    quotedText (printQuoted text ++ rest) = .ok (text.toList, rest) := by
  rw [printQuoted, List.cons_append, List.append_assoc]
  exact quotedText_escape text.toList rest

theorem closingText_printQuoted (text : String) :
    closingText (printQuoted text) = .ok text := by
  have hquoted := quotedText_printQuoted text []
  rw [List.append_nil] at hquoted
  rw [closingText, hquoted]
  show Except.ok (String.ofList text.toList) = _
  rw [String.ofList_toList]

/-! ### Attributes -/

section Attributes

variable {line rest : List Char}

theorem IsName.ne_blank {name : String} (h : IsName name) {c : Char} (hc : c ∈ name.toList) :
    c ≠ ' ' := by
  rintro rfl
  exact absurd (h.2 _ hc).1 (by decide)

theorem IsName.endsAttributeName_eq {name : String} (h : IsName name) {c : Char}
    (hc : c ∈ name.toList) : endsAttributeName c = false := by
  simp [endsAttributeName, h.ne_blank hc, (h.2 c hc).2]

/-- **A printed attribute is read back** if a blank or nothing follows it. -/
theorem attributeAt_print {a : String × Option String} (h : IsName a.1)
    (hrest : ∀ c ∈ rest.head?, c = ' ') :
    attributeAt line (a.1.toList ++ (printValue a.2 ++ rest)) = .ok (a, rest) := by
  obtain ⟨name, value⟩ := a
  have hname : ∀ c ∈ name.toList, (!endsAttributeName c) = true := fun c hc => by
    rw [h.endsAttributeName_eq hc]
    rfl
  have hends : ∀ c ∈ (printValue value ++ rest).head?, (!endsAttributeName c) = false := by
    intro c hc
    cases value with
    | none =>
      rw [hrest c hc]
      rfl
    | some value =>
      cases hc
      rfl
  obtain ⟨htake, hdrop⟩ := takeWhile_eq_and_dropWhile_eq hname hends
  have hne : ¬ name.toList.isEmpty = true := fun hempty => h.1 (List.isEmpty_iff.1 hempty)
  rw [attributeAt, htake, hdrop, if_neg hne, String.ofList_toList]
  cases value with
  | none =>
    cases rest with
    | nil => rfl
    | cons c rest =>
      obtain rfl := hrest c rfl
      rfl
  | some value =>
    show Except.bind (quotedText (printQuoted value ++ rest)) _ = _
    rw [quotedText_printQuoted]
    show Except.ok ((name, some (String.ofList value.toList)), rest) = _
    rw [String.ofList_toList]

theorem attributesOf_eq {s : List Char} {a : String × Option String} (hne : Text.trimStart s ≠ [])
    (h : attributeAt line (Text.trimStart s) = .ok (a, rest)) :
    attributesOf line s = (attributesOf line rest).map (a :: ·) := by
  rw [attributesOf]
  simp only [List.isEmpty_iff, if_neg hne]
  split
  · cases h.symm.trans ‹_›
  · cases h.symm.trans ‹_›
    rfl

/-- What follows an attribute starts with a blank. -/
theorem eq_of_mem_head?_flatMap {attributes : List (String × Option String)} :
    ∀ c ∈ (attributes.flatMap printAttribute).head?, c = ' ' := by
  intro c hc
  cases attributes with
  | nil => cases hc
  | cons a attributes =>
    cases hc
    rfl

/-- **Printed attributes are read back.** -/
theorem attributesOf_print {attributes : List (String × Option String)}
    (h : ∀ a ∈ attributes, IsName a.1) :
    attributesOf line (attributes.flatMap printAttribute) = .ok attributes := by
  induction attributes with
  | nil =>
    rw [List.flatMap_nil, attributesOf]
    rfl
  | cons a attributes ih =>
    obtain ⟨hname, hnames⟩ := List.forall_mem_cons.1 h
    have htrim : Text.trimStart ((a :: attributes).flatMap printAttribute) =
        a.1.toList ++ (printValue a.2 ++ attributes.flatMap printAttribute) := by
      rw [List.flatMap_cons, printAttribute, List.cons_append, List.append_assoc, Text.trimStart,
        List.dropWhile_cons_of_pos (by decide)]
      obtain ⟨c, name, heq⟩ := List.exists_cons_of_ne_nil hname.1
      have hc := (hname.2 c (heq ▸ List.mem_cons_self)).1
      rw [heq, List.cons_append, List.dropWhile_cons_of_neg (by simp [hc])]
    have hne : Text.trimStart ((a :: attributes).flatMap printAttribute) ≠ [] := by
      rw [htrim]
      exact List.append_ne_nil_of_left_ne_nil hname.1 _
    rw [attributesOf_eq hne (htrim ▸ attributeAt_print hname eq_of_mem_head?_flatMap), ih hnames]
    rfl

theorem tagNode_print {name : String} {attributes : List (String × Option String)}
    (hname : IsName name) (hnames : ∀ a ∈ attributes, IsName a.1) :
    tagNode line (name.toList ++ attributes.flatMap printAttribute) =
      .ok (.element name attributes []) := by
  have hplain : ∀ c ∈ name.toList, (c != ' ') = true :=
    fun c hc => bne_iff_ne.2 (hname.ne_blank hc)
  have hends : ∀ c ∈ (attributes.flatMap printAttribute).head?, (c != ' ') = false := by
    intro c hc
    rw [eq_of_mem_head?_flatMap c hc]
    rfl
  obtain ⟨htake, hdrop⟩ := takeWhile_eq_and_dropWhile_eq hplain hends
  have hne : ¬ name.toList.isEmpty = true := fun hempty => hname.1 (List.isEmpty_iff.1 hempty)
  rw [tagNode, htake, hdrop, if_neg hne, attributesOf_print hnames, String.ofList_toList]
  rfl

end Attributes

/-! ### Rows -/

namespace Node

/-- A row may come behind another one. -/
def MayFollow (row next : Nat × Node) : Prop :=
  next.1 ≤ row.1 + if row.2.isElement then 1 else 0

theorem children_eq_nil_of_mem_listingAll (nodes : List Node) : ∀ {depth : Nat} {row : Nat × Node},
    row ∈ listingAll depth nodes → ∀ name attributes children,
      row.2 = .element name attributes children → children = [] := by
  induction nodes using forest_induction with
  | nil => intro depth row h; cases h
  | doctype rest ih | text value rest ih | raw value rest ih =>
    intro depth row h
    rcases List.mem_cons.1 h with rfl | h
    · intro name attributes children heq
      cases heq
    · exact ih h
  | element name attributes children rest ih₁ ih₂ =>
    intro depth row h
    rcases List.mem_append.1 h with h | h
    · rcases List.mem_cons.1 h with rfl | h
      · intro name attributes children heq
        cases heq
        rfl
      · exact ih₁ h
    · exact ih₂ h

/-- **Nothing in a listing is deeper than it may be.** -/
theorem isChain_listingAll (nodes : List Node) :
    ∀ depth, (listingAll depth nodes).IsChain MayFollow := by
  induction nodes using forest_induction with
  | nil => exact fun _ => .nil
  | doctype rest ih | text value rest ih | raw value rest ih =>
    intro depth
    refine List.isChain_cons.2 ⟨fun next hnext => ?_, ih depth⟩
    exact Nat.le_of_eq (head?_listingAll next hnext)
  | element name attributes children rest ih₁ ih₂ =>
    intro depth
    have hfirst : ((depth, .element name attributes []) ::
        listingAll (depth + 1) children).IsChain MayFollow := by
      refine List.isChain_cons.2 ⟨fun next hnext => ?_, ih₁ (depth + 1)⟩
      exact Nat.le_of_eq (head?_listingAll next hnext)
    refine List.isChain_append.2 ⟨hfirst, ih₂ depth, fun row hrow next hnext => ?_⟩
    have hdepth : depth ≤ row.1 := by
      rcases List.mem_cons.1 (List.mem_of_getLast? hrow) with rfl | hmem
      · exact Nat.le_refl depth
      · exact Nat.le_of_succ_le (le_of_mem_listingAll children hmem)
    rw [MayFollow, head?_listingAll next hnext]
    exact Nat.le_add_right_of_le hdepth

end Node

/-! ### Lines of nodes -/

section Rows

variable {node : Node} {row : Nat × Node}

/-- **The line of a node is read as the node.** -/
theorem lineNode_printNode (h : node.IsNamed) (hbare : ∀ name attributes children,
    node = .element name attributes children → children = []) :
    lineNode (printNode node) = .ok node := by
  cases node with
  | doctype => rfl
  | text value =>
    show (closingText (printQuoted value)).map Node.text = _
    rw [closingText_printQuoted]
    rfl
  | raw value =>
    show (closingText (printQuoted value)).map Node.raw = _
    rw [closingText_printQuoted]
    rfl
  | element name attributes children =>
    obtain rfl := hbare name attributes children rfl
    rw [printNode, lineNode, List.getLast?_concat, if_pos rfl, List.dropLast_concat]
    exact tagNode_print h.1 h.2

theorem exists_printNode_eq_cons (node : Node) :
    ∃ c rest, printNode node = c :: rest ∧ c ≠ ' ' ∧ c ≠ '#' := by
  cases node <;> exact ⟨_, _, rfl, by decide, by decide⟩

theorem exists_printNode_eq_concat (node : Node) :
    ∃ rest c, printNode node = rest ++ [c] ∧ Text.isBlank c = false := by
  cases node with
  | doctype => exact ⟨['!', 'd', 'o', 'c', 't', 'y', 'p'], 'e', rfl, rfl⟩
  | text value => exact ⟨'"' :: Text.escape value.toList, '"', rfl, rfl⟩
  | raw value => exact ⟨_ :: _ :: _ :: _ :: _ :: Text.escape value.toList, '"', rfl, rfl⟩
  | element name attributes children => exact ⟨_ :: _, '>', rfl, rfl⟩

theorem lineFeed_notMem_printQuoted (text : String) : '\n' ∉ printQuoted text := by
  intro h
  rcases List.mem_cons.1 h with h | h
  · cases h
  rcases List.mem_append.1 h with h | h
  · exact absurd (Text.le_of_mem_escape h) (by decide)
  · cases List.mem_singleton.1 h

theorem IsName.lineFeed_notMem {name : String} (h : IsName name) : '\n' ∉ name.toList :=
  fun hmem => absurd (h.2 _ hmem).1 (by decide)

theorem IsName.lineFeed_notMem_printAttribute {a : String × Option String} (h : IsName a.1) :
    '\n' ∉ printAttribute a := by
  obtain ⟨name, value⟩ := a
  have hvalue : '\n' ∉ printValue value := by
    cases value with
    | none => exact List.not_mem_nil
    | some value => simpa [printValue] using lineFeed_notMem_printQuoted value
  simpa [printAttribute, h.lineFeed_notMem] using hvalue

theorem Node.IsNamed.lineFeed_notMem_printNode (h : node.IsNamed) : '\n' ∉ printNode node := by
  cases node with
  | doctype => simp [printNode]
  | text value => exact lineFeed_notMem_printQuoted value
  | raw value => simpa [printNode] using lineFeed_notMem_printQuoted value
  | element name attributes children =>
    have hattributes : ∀ a ∈ attributes, '\n' ∉ printAttribute a :=
      fun a ha => (h.2 a ha).lineFeed_notMem_printAttribute
    simpa [printNode, h.1.lineFeed_notMem] using hattributes

/-- The line of a node has no blanks at its end. -/
theorem trimEnd_printRow (row : Nat × Node) : Text.trimEnd (printRow row) = printRow row := by
  obtain ⟨rest, c, heq, hc⟩ := exists_printNode_eq_concat row.2
  rw [printRow, heq, ← List.append_assoc, Text.trimEnd, List.reverse_concat,
    List.dropWhile_cons_of_neg (by simp [hc]), ← List.reverse_concat, List.reverse_reverse]

theorem indent_and_body (row : Nat × Node) :
    indent (printRow row) = 2 * row.1 ∧ body (printRow row) = printNode row.2 := by
  have hblanks : ∀ c ∈ List.replicate (2 * row.1) ' ', (c == ' ') = true := fun c hc => by
    rw [List.eq_of_mem_replicate hc]
    rfl
  have hnode : ∀ c ∈ (printNode row.2).head?, (c == ' ') = false := by
    obtain ⟨c, rest, heq, hc, -⟩ := exists_printNode_eq_cons row.2
    rw [heq]
    rintro _ ⟨⟩
    simpa using hc
  obtain ⟨htake, hdrop⟩ := takeWhile_eq_and_dropWhile_eq hblanks hnode
  rw [indent, body, trimEnd_printRow, printRow, htake, hdrop, List.length_replicate]
  exact ⟨rfl, rfl⟩

theorem depth_printRow (row : Nat × Node) : depth (printRow row) = row.1 := by
  rw [depth, (indent_and_body row).1]
  omega

theorem significant_printRow (row : Nat × Node) : Significant (printRow row) := by
  obtain ⟨c, rest, heq, -, hc⟩ := exists_printNode_eq_cons row.2
  rw [Significant, (indent_and_body row).2, heq]
  exact ⟨List.cons_ne_nil _ _, by simpa using hc⟩

end Rows

/-! ### Printed forests -/

section Print

variable {nodes : List Node}

theorem lineNode_of_mem (h : Node.AllNamed nodes) {row : Nat × Node}
    (hrow : row ∈ Node.listingAll 0 nodes) : lineNode (body (printRow row)) = .ok row.2 := by
  rw [(indent_and_body row).2]
  exact lineNode_printNode (h row hrow) (Node.children_eq_nil_of_mem_listingAll nodes hrow)

/-- **The lines of a listing are in order.** -/
theorem inOrder_map_printRow (h : Node.AllNamed nodes) :
    InOrder ((Node.listingAll 0 nodes).map printRow) := by
  intro before line after heq _
  obtain ⟨rows, _, hrows, rfl, hlater⟩ := List.map_eq_append_iff.1 heq
  obtain ⟨row, later, rfl, rfl, rfl⟩ := List.map_eq_cons_iff.1 hlater
  have hmem : ∀ {r : Nat × Node}, r ∈ rows ++ row :: later → r ∈ Node.listingAll 0 nodes :=
    fun hr => hrows ▸ hr
  have hnode := lineNode_of_mem h (hmem (List.mem_append_right rows List.mem_cons_self))
  refine ⟨?_, ?_, row.2, hnode⟩
  · rw [(indent_and_body row).1]
    omega
  · rw [depth_printRow]
    rcases List.eq_nil_or_concat' rows with rfl | ⟨rows, last, rfl⟩
    · have hfirst : row ∈ (Node.listingAll 0 nodes).head? := by
        rw [hrows]
        rfl
      exact Nat.le_of_eq (Node.head?_listingAll row hfirst)
    · have hlast := lineNode_of_mem h
        (hmem (List.mem_append_left _ (List.mem_append_right rows (List.mem_singleton_self last))))
      have hchain := Node.isChain_listingAll nodes 0
      rw [hrows] at hchain
      have hfollows : Node.MayFollow last row :=
        (List.isChain_append.1 hchain).2.2 last List.getLast?_concat row rfl
      rw [List.map_append, List.map_singleton, deepest_concat, if_pos (significant_printRow last),
        depth_printRow, isTag, hlast]
      exact hfollows

theorem described_map_printRow (h : Node.AllNamed nodes) :
    described ((Node.listingAll 0 nodes).map printRow) =
      (Node.listingAll 0 nodes).map (Prod.map id Except.ok) := by
  have hall : ((Node.listingAll 0 nodes).map printRow).filter Significant =
      (Node.listingAll 0 nodes).map printRow := by
    refine List.filter_eq_self.2 fun line hline => decide_eq_true ?_
    obtain ⟨row, -, rfl⟩ := List.mem_map.1 hline
    exact significant_printRow row
  rw [described, hall, List.map_map]
  refine List.map_congr_left fun row hrow => ?_
  exact Prod.ext (depth_printRow row) (lineNode_of_mem h hrow)

theorem parse_of_lines (h : Node.AllNamed nodes) {source : String}
    (hlines : Text.lines source.toList = (Node.listingAll 0 nodes).map printRow) :
    parse source = .ok nodes := by
  obtain ⟨nodes', hparse, hlisting⟩ := parse_of_inOrder (hlines ▸ inOrder_map_printRow h)
  rw [hlines, described_map_printRow h] at hlisting
  have hinjective : Function.Injective (Prod.map id Except.ok :
      Nat × Node → Nat × Except LineError Node) := fun ⟨_, _⟩ ⟨_, _⟩ heq => by cases heq; rfl
  rw [hparse, Node.listingAll_inj nodes' (List.map_injective_iff.2 hinjective hlisting)]

theorem of_mem_map_printRow (h : Node.AllNamed nodes) {line : List Char}
    (hline : line ∈ (Node.listingAll 0 nodes).map printRow) :
    '\n' ∉ line ∧ line.getLast? ≠ some '\r' ∧ line ≠ [] := by
  obtain ⟨row, hrow, rfl⟩ := List.mem_map.1 hline
  obtain ⟨rest, c, heq, hc⟩ := exists_printNode_eq_concat row.2
  refine ⟨?_, ?_, ?_⟩
  · have hnode := (h row hrow).lineFeed_notMem_printNode
    simpa [printRow] using hnode
  · rw [printRow, heq, ← List.append_assoc, List.getLast?_concat]
    rintro ⟨⟩
    cases hc
  · simp [printRow, heq]

/-- **A printed forest is read back**, if its elements and attributes have names that can stand in
tags.  Texts, raw markup and values may have any characters.  The last line need not have an end. -/
theorem parse_print (nodes : List Node) (h : Node.AllNamed nodes) :
    parse (print nodes) = .ok nodes ∧
      ∀ source, source ++ "\n" = print nodes → parse source = .ok nodes := by
  have hlines {lines : List (List Char)}
      (hsub : ∀ line ∈ lines, line ∈ (Node.listingAll 0 nodes).map printRow) :
      ∀ line ∈ lines, '\n' ∉ line ∧ line.getLast? ≠ some '\r' :=
    fun line hline => (of_mem_map_printRow h (hsub line hline)).imp_right And.left
  refine ⟨parse_of_lines h ?_, fun source hsource => parse_of_lines h ?_⟩
  · have hall := Text.lines_flatMap_append (hlines fun _ => id) []
    rw [List.append_nil] at hall
    rw [print, String.toList_ofList]
    exact hall.trans (List.append_nil _)
  · have heq := congrArg String.toList hsource
    rw [print, String.toList_ofList, String.toList_append] at heq
    rcases List.eq_nil_or_concat' ((Node.listingAll 0 nodes).map printRow) with
      hnone | ⟨first, last, hsome⟩
    · rw [hnone] at heq
      simp at heq
    · rw [hsome, List.flatMap_append, List.flatMap_singleton, ← List.append_assoc] at heq
      have hlast := of_mem_map_printRow h (hsome ▸ List.mem_append_right first
        (List.mem_singleton_self last))
      rw [(List.append_inj' heq rfl).1, hsome, Text.lines_flatMap_append (hlines fun line hline =>
        hsome ▸ List.mem_append_left [last] hline), Text.lines_of_notMem hlast.1 hlast.2.2]

end Print

/-- A page with an attribute that has no value, and with quotes, line feeds and brackets in texts. -/
def page : List Node :=
  [.doctype, .element "html" [("lang", some "en"), ("class", some "a \"b\" > c")]
    [.element "p" [("hidden", none)] [.text "one\ntwo \\", .raw "<!-- \" -->"], .text ""]]

theorem allNamed_page : Node.AllNamed page := by decide

example : print [.element "p" [("hidden", none), ("id", some "\"")] [.text "a\n"]] =
    "<p hidden id=\"\\\"\">\n  \"a\\n\"\n" := by decide +kernel

theorem parse_print_page :
    Node.AllNamed page ∧ parse (print page) = .ok page ∧
      ∀ source, source ++ "\n" = print page → parse source = .ok page :=
  ⟨allNamed_page, parse_print page allNamed_page⟩

end Outline

end HtmlTape
