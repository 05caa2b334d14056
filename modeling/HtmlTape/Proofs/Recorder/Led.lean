import HtmlTape.Proofs.Builder.Retold
import HtmlTape.Proofs.Draft.Framed
import HtmlTape.Proofs.Recorder.Abreast
import HtmlTape.Proofs.Recorder.Allowed

/-!
# Attributes that lead the arguments

An element that is opened with prepared attributes records them when its arguments are there already,
and puts them in front.  It comes to the same to record the attributes right before the arguments,
and to claim them together with the arguments (`Recorder.openElementWith_leads`): the words that are
written differ, and so do the offsets, but the draft does not (`Draft.enter_lead`), and recorders with
the same draft make the same documents.

The arguments are what the last requests recorded by themselves (`Draft.RecordsAlone`), and these can
be repeated behind the attributes.  Every draft can be told so that its last items are recorded like
this (`Draft.exists_toldBy`).
-/

namespace HtmlTape

/-! ### Items in front of the last ones -/

/-- The requests that record prepared attributes, one by one. -/
def PreparedAttribute.requests (objects : List PreparedAttribute) : List SpelledCall :=
  objects.map fun p => .valued (.coded p.name) p.value

theorem exists_append_of_le {α : Type} {as : List α} {count : Nat} (h : count ≤ as.length) :
    ∃ kept last, as = kept ++ last ∧ last.length = count := by
  refine ⟨as.take (as.length - count), as.drop (as.length - count),
    (List.take_append_drop _ _).symm, ?_⟩
  rw [List.length_drop]
  exact Nat.sub_sub_self h

theorem Sheet.keep_append (scope : Scope) (kept last : List (Item String)) :
    Sheet.keep ⟨scope, kept ++ last⟩ last.length = ⟨scope, kept⟩ := by
  rw [keep, List.length_append, Nat.add_sub_cancel, List.take_left]

theorem Sheet.taken_append (scope : Scope) (kept last : List (Item String)) :
    Sheet.taken ⟨scope, kept ++ last⟩ last.length = last := by
  rw [taken, List.length_append, Nat.add_sub_cancel, List.drop_left]

namespace Draft

variable {m m' : Draft String}

def lead (m : Draft String) (first : List (Item String)) (count : Nat) : Draft String :=
  { m with current := ⟨m.current.scope,
    (m.current.keep count).items ++ first ++ m.current.taken count⟩ }

theorem enter_append (scope level : Scope) (first kept last : List (Item String))
    (outer : List (Sheet String)) (names : Names) :
    enter ⟨⟨level, kept ++ last⟩, outer, names⟩ scope first last.length =
      some ⟨⟨scope, first ++ last⟩, ⟨level, kept⟩ :: outer, names⟩ := by
  have hle : last.length ≤ (kept ++ last).length := by
    rw [List.length_append]
    exact Nat.le_add_left _ _
  rw [enter_of_le _ _ _ hle, Sheet.taken_append, Sheet.keep_append]

theorem lead_append (level : Scope) (first kept last : List (Item String))
    (outer : List (Sheet String)) (names : Names) :
    lead ⟨⟨level, kept ++ last⟩, outer, names⟩ first last.length =
      ⟨⟨level, kept ++ (first ++ last)⟩, outer, names⟩ := by
  rw [lead, Sheet.taken_append, Sheet.keep_append, List.append_assoc]

theorem length_lead (m : Draft String) (first : List (Item String)) {count : Nat}
    (h : count ≤ m.current.items.length) :
    (m.lead first count).current.items.length = first.length + m.current.items.length := by
  obtain ⟨⟨level, items⟩, outer, names⟩ := m
  obtain ⟨kept, last, rfl, rfl⟩ := exists_append_of_le h
  rw [lead_append]
  show (kept ++ (first ++ last)).length = first.length + (kept ++ last).length
  simp only [List.length_append]
  omega

/-- **It comes to the same** to open a level with first items, and to have them in front of the last
ones and to open the level with both. -/
theorem enter_lead (m : Draft String) (scope : Scope) (first : List (Item String)) {count : Nat}
    (h : count ≤ m.current.items.length) :
    (m.lead first count).enter scope [] (first.length + count) = m.enter scope first count := by
  obtain ⟨⟨level, items⟩, outer, names⟩ := m
  obtain ⟨kept, last, rfl, rfl⟩ := exists_append_of_le h
  rw [lead_append, ← List.length_append, enter_append, enter_append]
  rfl

theorem takes_objects (objects : List PreparedAttribute) : ∀ {m : Draft String},
    (∀ p ∈ objects, (m.names.attributeText? p.name).isSome) →
      m.Takes (PreparedAttribute.requests objects)
        (m.append (Recorder.preparedItems objects) m.names) := by
  induction objects with
  | nil =>
    intro m _
    rw [Recorder.preparedItems, List.map_nil, append, List.append_nil]
    exact .nil m
  | cons p objects ih =>
    intro m h
    obtain ⟨hp, hobjects⟩ := List.forall_mem_cons.1 h
    have hfirst : m.Takes [.valued (.coded p.name) p.value]
        (m.append [.mark (.valued p.name p.value)] m.names) :=
      takes_coded (.valued p.name p.value) hp rfl
    exact hfirst.append_items (ih hobjects)

/-! ### Items that are recorded last -/

/-- The requests record the items by themselves: on a blank draft they record these items and
nothing else, and they do not start over. -/
structure RecordsAlone (names : Names) (calls : List SpelledCall) (items : List (Item String)) :
    Prop where
  stays : ∀ call ∈ calls, call.startsOver = false
  items : ∃ names', (blank names).requestEach calls = some ⟨⟨.root, items⟩, [], names'⟩

/-- The draft is told by `before` and `between`, where `between` records the last `count` items by
themselves, and the names of the attributes are known before it. -/
structure ToldBy (m : Draft String) (objects : List PreparedAttribute) (count : Nat)
    (before between : List SpelledCall) : Prop where
  reached : ∃ r, Recorder.Reaches (before ++ between) r
  draft : Draft.new.requestEach (before ++ between) = some m
  last : ∃ (m₀ : Draft String) (items : List (Item String)),
    Draft.new.requestEach before = some m₀ ∧ items.length = count ∧
      RecordsAlone m₀.names between items ∧
      ∀ p ∈ objects, (m₀.names.attributeText? p.name).isSome

namespace ToldBy

variable {objects : List PreparedAttribute} {count : Nat} {before between : List SpelledCall}

/-- The attributes can be recorded between the two courses, and then stand before the last items. -/
theorem takes_lead (h : m.ToldBy objects count before between) :
    ∃ m₀ m₁, Draft.new.Takes before m₀ ∧ m₀.Takes (PreparedAttribute.requests objects) m₁ ∧
      m₁.Takes between (m.lead (Recorder.preparedItems objects) count) := by
  obtain ⟨r, hr⟩ := h.reached
  obtain ⟨q, _, htakes⟩ := hr.takes
  obtain rfl := Option.some.inj (htakes.requestEach.symm.trans h.draft)
  obtain ⟨m₀', hbefore, hbetween⟩ := htakes.split
  obtain ⟨m₀, items, hm₀, rfl, ⟨hstays, names, hitems⟩, hknown⟩ := h.last
  obtain rfl := Option.some.inj (hbefore.requestEach.symm.trans hm₀)
  refine ⟨m₀', _, hbefore, takes_objects objects hknown, ?_⟩
  obtain ⟨hends, n, hn, hends'⟩ := Framed.takes hbetween (framed_blank m₀')
    (framed_blank (m₀'.append (Recorder.preparedItems objects) m₀'.names)) hstays hitems
  -- both ends stand before the items, so they are told apart by what stands before
  generalize hdraft : q.map Quote.text = m at hends
  cases hends with
  | ground =>
    cases hends' with
    | ground =>
      rw [lead_append, ← List.append_assoc]
      exact hn

end ToldBy

end Draft

namespace Draft.ToldBy

variable {m : Draft String} {objects : List PreparedAttribute} {count : Nat}
  {before between : List SpelledCall}

/-- **The attributes can be recorded right before the last items**, which then have other offsets. -/
theorem exists_reaches (h : m.ToldBy objects count before between) : ∃ between' s,
    between'.map Call.unplaced = between.map Call.unplaced ∧
      Recorder.Reaches (before ++ PreparedAttribute.requests objects ++ between') s := by
  obtain ⟨m₀, m₁, hbefore, hobjects, hbetween⟩ := h.takes_lead
  obtain ⟨r, answers, hr⟩ := h.reached
  obtain ⟨answers₀, r₀, _, hr₀, _⟩ := Recorder.exists_of_requestEach_append hr
  obtain ⟨q₀, hq₀, htakes⟩ := Recorder.mirrors_new.takes before hr₀
  have hdraft : q₀.map Quote.text = m₀ :=
    Option.some.inj (htakes.requestEach.symm.trans hbefore.requestEach)
  obtain ⟨objects', answers₁, r₁, q₁, hsame, hr₁, hq₁, hdraft₁⟩ :=
    hq₀.exists_requestEach hobjects hdraft
  obtain rfl : objects' = PreparedAttribute.requests objects := by
    refine Call.map_eq_of_unplaced_eq (fun call hcall => ?_) hsame
    obtain ⟨p, _, rfl⟩ := List.mem_map.1 hcall
    rfl
  obtain ⟨between', answers₂, s, _, hsame', hs, _⟩ := hq₁.exists_requestEach hbetween hdraft₁
  exact ⟨between', s, hsame', _,
    Recorder.requestEach_append (Recorder.requestEach_append hr₀ hr₁) hs⟩

/-- The draft of a recorder for which the attributes were recorded before the last items. -/
theorem mirrors_lead (h : m.ToldBy objects count before between) {between' : List SpelledCall}
    (hsame : between'.map Call.unplaced = between.map Call.unplaced) {s : Recorder}
    (hs : Recorder.Reaches (before ++ PreparedAttribute.requests objects ++ between') s) :
    ∃ q, s.Mirrors q ∧ q.map Quote.text = m.lead (Recorder.preparedItems objects) count := by
  obtain ⟨m₀, m₁, hbefore, hobjects, hbetween⟩ := h.takes_lead
  obtain ⟨q, hq, htakes⟩ := hs.takes
  have hlead := (hbefore.append hobjects).append (hbetween.congr hsame)
  exact ⟨q, hq, Option.some.inj (htakes.requestEach.symm.trans hlead.requestEach)⟩

end Draft.ToldBy

/-! ### Telling a draft with its last items by themselves -/

/-- **Every draft of a recorder can be told with its last items by themselves.** -/
theorem Draft.exists_toldBy {m : Draft String} (hproper : m.Proper) {calls : List SpelledCall}
    (hm : Draft.new.requestEach calls = some m) {objects : List PreparedAttribute}
    (hobjects : ∀ p ∈ objects, (m.names.attributeText? p.name).isSome) {count : Nat}
    (hcount : count ≤ m.current.items.length) :
    ∃ before between, m.ToldBy objects count before between := by
  obtain ⟨⟨scope, items⟩, outer, names⟩ := m
  obtain ⟨hroot, hname, hitems, hlevels⟩ := hproper
  obtain ⟨kept, last, rfl, rfl⟩ := exists_append_of_le hcount
  obtain ⟨hkept, hlast⟩ := Item.ProperAll.append_iff.1 hitems
  have hproper : Draft.Proper ⟨⟨scope, kept⟩, outer, names⟩ := ⟨hroot, hname, hkept, hlevels⟩
  obtain ⟨before, hbefore⟩ := exists_takes hproper hm rfl
  have hbetween := takes_requests last (m := ⟨⟨scope, kept⟩, outer, names⟩) hlast
  have halone := takes_requests last (m := blank names) hlast
  obtain ⟨calls', r, _, hsame, hr, _, _⟩ := Recorder.Reaches.of_takes (hbefore.append hbetween)
  have hdraft := (hbefore.append hbetween).congr hsame
  rw [List.map_append] at hsame
  obtain ⟨before', between', rfl, hsame₁, hsame₂⟩ := List.map_eq_append_iff.1 hsame
  refine ⟨before', between', ⟨r, hr⟩, hdraft.requestEach, _, last,
    (hbefore.congr hsame₁).requestEach, rfl, ⟨?_, names, (halone.congr hsame₂).requestEach⟩,
    hobjects⟩
  intro call hcall
  have hmem := List.mem_map_of_mem (f := Call.unplaced) hcall
  rw [hsame₂] at hmem
  obtain ⟨call', hcall', heq⟩ := List.mem_map.1 hmem
  rw [← call.startsOver_unplaced, ← heq, Call.startsOver_unplaced]
  exact Item.startsOver_requests last call' hcall'

/-! ### Opening an element with attributes -/

namespace Recorder

variable {r a : Recorder} {q : Draft Quote} {name : ElementName}
  {objects : List PreparedAttribute} {args : List Token}

/-- The arguments name the last `count` entries of the innermost level, in order. -/
def NamesLast (r : Recorder) (count : Nat) (args : List Token) : Prop :=
  args.filterMap Token.record? = r.current.records.drop (r.current.records.length - count)

theorem NamesLast.claimed_eq {count : Nat} (h : r.NamesLast count args)
    (hcount : count ≤ r.current.entries.size) : Draft.claimed args = count := by
  have hclaimed : Draft.claimed args = _ := congrArg List.length h
  rw [List.length_drop, Level.records, List.length_map, Array.length_toList] at hclaimed
  omega

/-- The innermost level of `a` was opened inside of that of `r`, and took its last `count` entries
over, behind `own` entries of its own.  All other entries of that level, and those of the levels
around it, are as they were. -/
structure TakesOver (r a : Recorder) (own count : Nat) : Prop where
  outer : a.outer = { r.current with
    entries := r.current.entries.extract 0 (r.current.entries.size - count) } :: r.outer
  size : a.current.entries.size = own + count
  taken : a.current.entries.toList.drop own =
    r.current.entries.toList.drop (r.current.entries.size - count)

theorem Mirrors.opened (h : r.Mirrors q) (ha : r.openElementWith name objects args = .ok a) :
    ∃ n, a.Mirrors n ∧ (q.map Quote.text).enter (.element name) (preparedItems objects)
      (Draft.claimed args) = some (n.map Quote.text) := by
  obtain ⟨n, hn, henter⟩ := h.openElementWith ha
  have henter := Draft.enter_map_eq Quote.text henter
  rw [← Item.mapAll_eq_map, Item.mapAll_placeAll] at henter
  exact ⟨n, hn, henter⟩

/-- **An element that is opened takes over what it claims**, and leaves the rest alone. -/
theorem takesOver (ha : r.openElementWith name objects args = .ok a) :
    r.TakesOver a objects.length (Draft.claimed args) := by
  obtain ⟨hle, _, s, hprepared, rfl⟩ := openElementWith_eq_ok ha
  obtain ⟨_, rfl⟩ := preparedAttributes_eq_ok objects hprepared
  have hown : ((r.enter (.element name) (r.current.split (Draft.claimed args)).1
      #[]).current.putAttributes objects).entries.size = objects.length := by
    rw [Level.size_putAttributes]
    exact Nat.zero_add _
  have hclaimed := (r.current.toList_split (Draft.claimed args)).2
  rw [Array.length_toList] at hclaimed
  refine ⟨rfl, ?_, ?_⟩
  · have hgiven := congrArg List.length hclaimed
    rw [List.length_drop, Array.length_toList, Array.length_toList, Nat.sub_sub_self hle] at hgiven
    show (_ ++ (r.current.split (Draft.claimed args)).2).size = _
    rw [Array.size_append, hown, hgiven]
  · show (_ ++ (r.current.split (Draft.claimed args)).2).toList.drop _ = _
    rw [Array.toList_append, ← hown, ← Array.length_toList, List.drop_left, hclaimed]

/-- The attributes that an element was opened with lead its arguments, of which there are `count`. -/
structure LeadsArguments (r a : Recorder) (m : Draft String) (name : ElementName)
    (objects : List PreparedAttribute) (count : Nat) : Prop where
  /-- The element has the attributes and the arguments, and all other entries are as they were. -/
  takesOver : r.TakesOver a objects.length count
  /-- The document so far can be told by requests of which the last ones record the arguments by
  themselves. -/
  told : ∃ before between, m.ToldBy objects count before between
  /-- However it is told so, the attributes can be recorded right before the arguments. -/
  recorded : ∀ before between, m.ToldBy objects count before between → ∃ between' s,
    between'.map Call.unplaced = between.map Call.unplaced ∧
      Reaches (before ++ PreparedAttribute.requests objects ++ between') s
  /-- Then an element that claims the attributes and the arguments together is opened as well, all
  other entries are as they were, and whatever follows, the documents are the same. -/
  claimed : ∀ before between between' s args, m.ToldBy objects count before between →
    between'.map Call.unplaced = between.map Call.unplaced →
    Reaches (before ++ PreparedAttribute.requests objects ++ between') s →
    s.NamesLast (objects.length + count) args →
      ∃ b, s.openElementClaiming name args = .ok b ∧
        s.TakesOver b 0 (objects.length + count) ∧ a.SameDocuments b

/-- **Attributes lead the arguments.**  An element that is opened with attributes and with arguments
that were recorded before comes to the same as one that claims the attributes and the arguments,
where the attributes were recorded right before the arguments. -/
theorem openElementWith_leads {calls : List SpelledCall} (h : Reaches calls r)
    (ha : r.openElementWith name objects args = .ok a) :
    ∃ m, Draft.new.requestEach calls = some m ∧
      r.LeadsArguments a m name objects (Draft.claimed args) := by
  obtain ⟨q, hq, hcalls⟩ := h.mirrors
  obtain ⟨hclaim, hname, hobjects⟩ := (openElementWith_ok_iff r name objects args).1 ⟨a, ha⟩
  obtain ⟨n, hn, henter⟩ := hq.opened ha
  have hcount := Draft.le_of_enter henter
  have hnames : (q.map Quote.text).names = r.names := hq.1
  refine ⟨q.map Quote.text, hcalls, takesOver ha, ?_, fun _ _ htold => htold.exists_reaches, ?_⟩
  · exact Draft.exists_toldBy hq.proper hcalls (hnames ▸ hobjects) hcount
  · intro before between between' s args' htold hsame hs hargs
    obtain ⟨q', hq', hlead⟩ := htold.mirrors_lead hsame hs
    have hnames' : s.names = r.names := by
      rw [← hnames, ← show (q'.map Quote.text).names = s.names from hq'.1, hlead]
      rfl
    have hlength : (preparedItems objects).length = objects.length := List.length_map _
    have hclaimed : Draft.claimed args' = objects.length + Draft.claimed args := by
      refine hargs.claimed_eq ?_
      rw [← hq'.length_items, hlead, Draft.length_lead _ _ hcount, hlength]
      exact Nat.add_le_add_left hcount _
    obtain ⟨b, hb⟩ : ∃ b, s.openElementClaiming name args' = .ok b := by
      refine (openElementWith_ok_iff s name [] args').2 ⟨?_, hnames' ▸ hname, nofun⟩
      rw [Level.claim_ok_iff, hclaimed, hargs, Level.records, List.length_map]
    obtain ⟨n', hn', henter'⟩ := hq'.opened hb
    refine ⟨b, hb, hclaimed ▸ takesOver hb, SameDraft.sameDocuments ⟨n, n', hn, hn', ?_⟩⟩
    have henters := (q.map Quote.text).enter_lead (.element name) (preparedItems objects) hcount
    rw [hlength, ← hclaimed, ← hlead] at henters
    exact Option.some.inj (henter'.symm.trans (henters.trans henter))

/-- An open element with a text, and with an attribute and a text that are to be arguments. -/
def sectionCalls : List SpelledCall :=
  [.openElement (.spelled "section"), .text "x", .valued (.spelled "class") "a", .text "hi"]

theorem section_leads : ∃ r a m, Reaches sectionCalls r ∧
    r.openElementWith ⟨28⟩ [⟨.id, "u"⟩, ⟨.className, "card"⟩]
      [.entry .attr 6, .noop, .entry .text 10] = .ok a ∧
    Draft.new.requestEach sectionCalls = some m ∧
    r.LeadsArguments a m ⟨28⟩ [⟨.id, "u"⟩, ⟨.className, "card"⟩] 2 := by
  have hopened : ((Recorder.new.requestEach sectionCalls).toOption.bind fun result =>
      (result.2.openElementWith ⟨28⟩ [⟨.id, "u"⟩, ⟨.className, "card"⟩]
        [.entry .attr 6, .noop, .entry .text 10]).toOption).isSome := by decide +kernel
  obtain ⟨a, ha⟩ := Option.isSome_iff_exists.1 hopened
  obtain ⟨⟨answers, r⟩, hr, ha⟩ := Option.bind_eq_some_iff.1 ha
  have hr : Reaches sectionCalls r := ⟨answers, of_toOption_eq_some hr⟩
  have ha := of_toOption_eq_some ha
  obtain ⟨m, hm, hleads⟩ := openElementWith_leads hr ha
  exact ⟨r, a, m, hr, ha, hm, hleads⟩

end Recorder

end HtmlTape
