import HtmlTape.Builder.Expr
import HtmlTape.Proofs.Recorder.Roll
import Mathlib.Data.List.Nodup

/-!
# Tokens and the entries they claim

A roll that was kept through any requests fits the recorder (`Recorder.Rolls.fits`).  When an
element or a fragment claims its arguments, the offsets of the tokens are compared with those of
the last entries, and nothing else is (`Level.claim_ok_iff`).

Among the tokens of what stands in the current recording that is enough: arguments are granted if
and only if each is the token of the very entry it claims (`Recorder.Rolls.claims`).  A token of
something that was dropped, or of another recording, may be taken for an entry that was recorded at
its offset later (`Expr.mixUp_granted`).
-/

namespace HtmlTape

/-! ### Claims compare offsets -/

theorem Level.misplaced?_eq_none (records : List Nat) (entries : List Entry)
    (h : records.length = entries.length) :
    misplaced? records entries = none ↔ records = entries.map Entry.record := by
  induction records generalizing entries with
  | nil =>
    obtain rfl := List.length_eq_zero_iff.1 h.symm
    exact ⟨fun _ => rfl, fun _ => rfl⟩
  | cons record records ih =>
    obtain ⟨entry, rest, rfl⟩ := List.exists_cons_of_length_eq_add_one h.symm
    have hrest := ih rest (Nat.succ.inj h)
    rw [misplaced?, List.findIdx?_eq_none_iff] at hrest ⊢
    rw [List.zip_cons_cons, List.forall_mem_cons, hrest, List.map_cons, List.cons.injEq,
      bne_eq_false_iff_eq]

/-- **Arguments are granted** if their offsets are those of the last entries. -/
theorem Level.claim_ok_iff (level : Level) (args : List Token) :
    (∃ x, level.claim args = .ok x) ↔ args.filterMap Token.record? =
      (level.entries.toList.map Entry.record).drop
        (level.entries.toList.length - Draft.claimed args) := by
  have hlast := (level.toList_split (Draft.claimed args)).2
  rw [← List.map_drop, ← hlast]
  have hlength := congrArg List.length hlast
  rw [List.length_drop] at hlength
  have hclaimed : (args.filterMap Token.record?).length = Draft.claimed args := rfl
  rw [claim]
  by_cases hlt : level.entries.size < (args.filterMap Token.record?).length
  · -- there are too many arguments, so the lists differ in length
    simp only [if_pos hlt]
    constructor
    · rintro ⟨x, hx⟩
      cases hx
    · intro heq
      have heq := congrArg List.length heq
      rw [List.length_map, hlength] at heq
      rw [← Array.length_toList] at hlt
      omega
  · have hrecords : (args.filterMap Token.record?).length =
        (level.split (Draft.claimed args)).2.toList.length := by
      rw [← Array.length_toList] at hlt
      omega
    rw [← misplaced?_eq_none _ _ hrecords]
    simp only [if_neg hlt]
    constructor
    · rintro ⟨x, hx⟩
      split at hx
      · cases hx
      · assumption
    · intro hnone
      refine ⟨level.split (Draft.claimed args), ?_⟩
      rw [hclaimed, hnone]

namespace Roll

/-- The roll tells of the levels of the recorder. -/
def Fits (roll : Roll) (r : Recorder) : Prop :=
  Roll.Fit (roll.current :: roll.outer) (r.current :: r.outer)

variable {roll : Roll} {r r' : Recorder}

theorem fits_new (calls : Nat) : Fits { new with calls } Recorder.new := Fit.nil_root

theorem Fits.congr (h : roll.Fits r) (hc : r'.current = r.current) (ho : r'.outer = r.outer) :
    roll.Fits r' := by
  rw [Fits, hc, ho]
  exact h

/-! ### Calls -/

theorem Fits.putLeaf (h : roll.Fits r) {leaf : Literal → Leaf} {kind : TokenKind}
    (hkind : ∀ l, (leaf l).words[0]?.bind TokenKind.ofWord? = some kind) (text : String) :
    (roll.add kind (r.putLeaf leaf text).1).Fits (r.putLeaf leaf text).2 :=
  Fit.putLeaf h hkind text roll.calls

theorem Fits.valuedAttribute (h : roll.Fits r) {name : AttributeName} {value : String} {o : Nat}
    (hr : r.valuedAttribute name value = .ok (o, r')) : (roll.add .attr o).Fits r' := by
  obtain ⟨_, _, hr⟩ := of_bind_eq_ok hr
  cases hr
  have hc : roll.Fits r.countAttribute := h.congr rfl rfl
  exact hc.putLeaf (fun _ => rfl) value

theorem Fits.booleanAttribute (h : roll.Fits r) {name : AttributeName} {o : Nat}
    (hr : r.booleanAttribute name = .ok (o, r')) : (roll.add .attr o).Fits r' := by
  obtain ⟨_, _, hr⟩ := of_bind_eq_ok hr
  cases hr
  have hc : roll.Fits r.countAttribute := h.congr rfl rfl
  exact hc.putLeaf (fun _ => rfl) ""

theorem Fit.putAttributes (call : Nat) (prepared : List PreparedAttribute) {outer : List Level} :
    ∀ {level : Level} {page : Page} {pages : List Page}, Fit (page :: pages) (level :: outer) →
    ∃ first, first.length = prepared.length ∧
      (level.putAttributes prepared).entries.toList.map Entry.record =
        level.entries.toList.map Entry.record ++ first ∧
      Fit (⟨page.entries ++ first.map fun record => ⟨call, record, .attr⟩,
        page.standing ++ first.map fun record => ⟨call, record, .attr⟩⟩ :: pages)
        (level.putAttributes prepared :: outer) := by
  induction prepared with
  | nil =>
    intro level page pages h
    refine ⟨[], rfl, (List.append_nil _).symm, ?_⟩
    rwa [List.map_nil, List.append_nil, List.append_nil]
  | cons p prepared ih =>
    intro level page pages h
    have hput : Fit (page.add ⟨call, level.here, .attr⟩ :: pages)
        (level.putLeaf (.valued p.name) p.value :: outer) := h.putLeaf (fun _ => rfl) p.value call
    obtain ⟨first, hlength, hentries, hfit⟩ := ih hput
    refine ⟨level.here :: first, congrArg Nat.succ hlength, ?_, ?_⟩
    · refine hentries.trans ?_
      show (level.entries.push _).toList.map Entry.record ++ first = _
      rw [Array.toList_push, List.map_append, List.append_assoc]
      rfl
    · rw [Page.add, List.append_assoc, List.append_assoc] at hfit
      exact hfit

theorem Fits.enterWith (h : roll.Fits r) (scope : Scope) (count : Nat)
    (prepared : List PreparedAttribute)
    (hr : (r.enter scope (r.current.split count).1 #[]).preparedAttributes prepared = .ok r') :
    let opened := { r' with current := { r'.current with
      entries := r'.current.entries ++ (r.current.split count).2 } }
    (roll.enter ((opened.current.entries.toList.take prepared.length).map Entry.record)
      count).Fits opened := by
  obtain ⟨_, rfl⟩ := Recorder.preparedAttributes_eq_ok prepared hr
  obtain ⟨first, hlength, hentries, hfit⟩ :=
    Fit.putAttributes roll.calls prepared (h.enter scope count)
  have hentries : ((r.enter scope (r.current.split count).1 #[]).current.putAttributes
      prepared).entries.toList.map Entry.record = first := hentries
  intro opened
  have hfirst : first =
      (opened.current.entries.toList.take prepared.length).map Entry.record := by
    rw [Array.toList_append, List.map_take, List.map_append, hentries]
    exact (List.take_left' hlength).symm
  show Fit _ ({ Level.putAttributes _ prepared with entries := _ } :: _)
  rw [← hfirst]
  refine hfit.give ?_ fun issue hissue => ?_
  · rw [(r.current.toList_split count).2, lastEntries, List.map_drop, List.map_drop,
      h.fits.entries, h.fits.length_eq]
  · -- what the new level takes over stands in the levels around it
    have hmem := h.mem_standing issue (List.mem_of_mem_drop hissue)
    rw [List.flatMap_cons]
    exact List.mem_append_right _ hmem

theorem Fits.enter (h : roll.Fits r) (scope : Scope) (count : Nat) :
    (roll.enter [] count).Fits
      (r.enter scope (r.current.split count).1 (r.current.split count).2) := by
  have := h.enterWith scope count [] rfl
  rwa [Recorder.enter, Array.empty_append] at this

theorem Fits.enterEmpty (h : roll.Fits r) (scope : Scope) :
    (roll.enter [] 0).Fits (r.enter scope r.current #[]) := by
  have := h.enter scope 0
  rwa [Level.split_zero] at this

theorem Fits.openElement (h : roll.Fits r) {name : ElementName}
    (hr : r.openElement name = .ok r') : (roll.enter [] 0).Fits r' := by
  obtain ⟨_, rfl⟩ := Recorder.openElement_eq_ok hr
  exact h.enterEmpty (.element name)

theorem Fits.openElementWith (h : roll.Fits r) {name : ElementName}
    {prepared : List PreparedAttribute} {args : List Token}
    (hr : r.openElementWith name prepared args = .ok r') :
    (roll.enter ((r'.current.entries.toList.take prepared.length).map Entry.record)
      (Draft.claimed args)).Fits r' := by
  obtain ⟨_, _, s, hfold, rfl⟩ := Recorder.openElementWith_eq_ok hr
  exact h.enterWith (.element name) _ prepared hfold

theorem Fits.adopt (h : roll.Fits r) {name : ElementName} {count : Nat}
    (hr : r.adopt name count = .ok r') : (roll.enter [] count).Fits r' := by
  obtain ⟨_, _, rfl⟩ := Recorder.adopt_eq_ok hr
  exact h.enter (.element name) count

theorem Fits.closeElement (h : roll.Fits r) {o : Nat} (hr : r.closeElement = .ok (o, r')) :
    (roll.close .element o).Fits r' := by
  obtain ⟨name, parent, outer, hscope, houter, _, rfl, hcurrent, hr', _⟩ :=
    Recorder.closeElement_eq_ok hr
  obtain ⟨calls, page, pages⟩ := roll
  rw [Fits, houter] at h
  obtain ⟨above, pages, rfl⟩ := Fit.exists_above h
  have hstart : r.current.start = parent.here := h.start_eq
  have hwords : Recorder.elementWords name r.current.words r.current.refs =
      #[Tag.element.word, r.current.words.size + r.current.refs.length + 5, name.code] ++
        r.current.words ++ (Recorder.refWords r.current.refs ++
          #[r.current.refs.length, Tag.elementEnd.word]) := Array.append_assoc
  rw [Fits, hcurrent, hr', hwords]
  refine h.absorb (by rw [hscope]; rfl) rfl ?_ (.inl ?_)
  · refine Issue.At.append (Issue.At.append ⟨Nat.le_of_eq hstart.symm, ?_⟩ _) _
    show _ = some TokenKind.element
    rw [hstart, Nat.sub_self]
    rfl
  · rw [Level.inner, hscope]
    exact Nat.lt_add_of_pos_right (Nat.succ_pos 2)

theorem Fits.endFragment (h : roll.Fits r) {o : Nat} (hr : r.endFragment = .ok (o, r')) :
    (roll.close .fragment o).Fits r' := by
  obtain ⟨parent, outer, hscope, houter, rfl, hcurrent, hr', _⟩ :=
    Recorder.endFragment_eq_ok hr
  obtain ⟨calls, page, pages⟩ := roll
  rw [Fits, houter] at h
  obtain ⟨above, pages, rfl⟩ := Fit.exists_above h
  have hhere : r.current.here = parent.here + (#[] ++ r.current.words).size := by
    have hstart : r.current.start = parent.here := h.start_eq
    rw [Level.here, hstart, hscope, Array.empty_append]
    rfl
  have hwords : r.current.words ++ #[Tag.fragment.word, r.current.refs.length] ++
      Recorder.refWords r.current.refs =
      #[] ++ r.current.words ++ (#[Tag.fragment.word, r.current.refs.length] ++
        Recorder.refWords r.current.refs) := by
    rw [Array.empty_append, Array.append_assoc]
  rw [Fits, hcurrent, hr', hwords]
  refine h.absorb (by rw [hscope]; rfl) rfl (Issue.At.prepend ?_) (.inr (Nat.le_refl _))
  rw [← hhere]
  refine Issue.At.append ⟨Nat.le_refl _, ?_⟩ _
  rw [Nat.sub_self]
  rfl

theorem Fits.fragment (h : roll.Fits r) {args : List Token} {o : Nat}
    (hr : r.fragment args = .ok (o, r')) :
    ((roll.enter [] (Draft.claimed args)).close .fragment o).Fits r' :=
  (h.enter .fragment _).endFragment (Recorder.fragment_eq_ok hr).2

theorem Fits.abortFragment (h : roll.Fits r) (hr : r.abortFragment = .ok r') :
    roll.drop.Fits r' := by
  obtain ⟨parent, outer, _, houter, rfl⟩ := Recorder.abortFragment_eq_ok hr
  obtain ⟨calls, page, pages⟩ := roll
  rw [Fits, houter] at h
  obtain ⟨above, pages, rfl⟩ := Fit.exists_above h
  exact h.outer

/-- **Every call that a recorder answers keeps the roll fitting.** -/
theorem Fits.turn (h : roll.Fits r) {call : Call ElementName AttributeName} {answer : Answer}
    (hr : r.step call = .ok (answer, r')) : (roll.turn r' call answer).Fits r' := by
  have hc : roll.Fits r.countText := h.congr rfl rfl
  cases call with
  | text value =>
    cases hr
    exact hc.putLeaf (fun _ => rfl) value
  | raw value =>
    cases hr
    exact hc.putLeaf (fun _ => rfl) value
  | doctype =>
    cases hr
    exact h.putLeaf (fun _ => rfl) ""
  | valued name value =>
    obtain ⟨⟨o, s⟩, hs, he⟩ := of_map_eq_ok hr
    cases he
    exact h.valuedAttribute hs
  | boolean name =>
    obtain ⟨⟨o, s⟩, hs, he⟩ := of_map_eq_ok hr
    cases he
    exact h.booleanAttribute hs
  | openElement name =>
    obtain ⟨s, hs, he⟩ := of_map_eq_ok hr
    cases he
    exact h.openElement hs
  | openWith name prepared args =>
    obtain ⟨s, hs, he⟩ := of_map_eq_ok hr
    cases he
    have := h.openElementWith hs
    rwa [List.length_map] at this
  | adopt name count =>
    obtain ⟨s, hs, he⟩ := of_map_eq_ok hr
    cases he
    exact h.adopt hs
  | closeElement =>
    obtain ⟨⟨o, s⟩, hs, he⟩ := of_map_eq_ok hr
    cases he
    exact h.closeElement hs
  | beginFragment =>
    cases hr
    exact h.enterEmpty .fragment
  | fragment args =>
    obtain ⟨⟨o, s⟩, hs, he⟩ := of_map_eq_ok hr
    cases he
    exact h.fragment hs
  | endFragment =>
    obtain ⟨⟨o, s⟩, hs, he⟩ := of_map_eq_ok hr
    cases he
    exact h.endFragment hs
  | abortFragment =>
    obtain ⟨s, hs, he⟩ := of_map_eq_ok hr
    cases he
    exact h.abortFragment hs
  | finish =>
    obtain ⟨⟨t, s⟩, hs, he⟩ := of_map_eq_ok hr
    cases he
    obtain ⟨_, _, rfl, _⟩ := Recorder.finish_eq_ok hs
    exact fits_new roll.calls
  | reset =>
    cases hr
    exact fits_new roll.calls
  | nextId =>
    cases hr
    exact h.congr rfl rfl
  | internElement name =>
    cases hr
    exact h
  | internAttribute name =>
    cases hr
    exact h

end Roll

/-- **A roll that was kept fits the recorder.** -/
theorem Recorder.Rolls.fits {roll : Roll} {r : Recorder} (h : Rolls roll r) : roll.Fits r := by
  induction h with
  | new => exact Roll.fits_new 0
  | @granted roll r s r' request call answer _ hrun hr ih =>
    obtain ⟨result, names, _, hlocal⟩ := Lookup.call_local request r.names
    rw [hlocal r rfl] at hrun
    cases hrun
    have hs : roll.Fits { r with names } := ih.congr rfl rfl
    exact hs.turn hr
  | @refused roll r s request e _ hrun ih =>
    obtain ⟨result, names, _, hlocal⟩ := Lookup.call_local request r.names
    rw [hlocal r rfl] at hrun
    cases hrun
    exact ih.congr rfl rfl

/-! ### Tokens of what stands -/

theorem Token.filterMap_record? {args : List Token} {given : List Issue}
    (h : args.filter (· ≠ .noop) = given.map Issue.token) :
    args.filterMap Token.record? = given.map Issue.record := by
  have hrecord : Token.record? ∘ Issue.token = some ∘ Issue.record := rfl
  have hnoop : (fun arg => if decide (arg ≠ Token.noop) then arg.record? else none) =
      Token.record? := by
    funext arg
    cases arg <;> rfl
  calc args.filterMap Token.record?
      = (args.filter (· ≠ .noop)).filterMap Token.record? := by
        rw [List.filterMap_filter, hnoop]
    _ = given.map Issue.record := by
        rw [h, List.filterMap_map, hrecord, List.filterMap_eq_map]

namespace Roll

/-- What stands is told apart by its offsets. -/
theorem Fit.eq_of_records {pages : List Page} {levels : List Level} (h : Fit pages levels)
    (as : List Issue) : ∀ bs : List Issue, (∀ a ∈ as, a ∈ pages.flatMap Page.standing) →
    (∀ b ∈ bs, b ∈ pages.flatMap Page.standing) →
    as.map Issue.record = bs.map Issue.record → as = bs := by
  induction as with
  | nil =>
    intro bs _ _ heq
    exact (List.map_eq_nil_iff.1 heq.symm).symm
  | cons a as ih =>
    intro bs has hbs heq
    obtain ⟨b, bs, rfl, hrecord, hrest⟩ := List.map_eq_cons_iff.1 heq.symm
    rw [List.forall_mem_cons] at has hbs
    rw [List.inj_on_of_nodup_map h.nodup has.1 hbs.1 hrecord.symm,
      ih bs has.2 hbs.2 hrest.symm]

variable {roll : Roll} {r : Recorder}

/-- **Arguments that stand are granted** if they are the last entries. -/
theorem Fits.claim_ok_iff (h : roll.Fits r) {args : List Token} {given : List Issue}
    (hargs : args.filter (· ≠ .noop) = given.map Issue.token)
    (hgiven : ∀ issue ∈ given, issue ∈ roll.standing) :
    (∃ x, r.current.claim args = .ok x) ↔ given = roll.lastEntries given.length := by
  have hrecords := Token.filterMap_record? hargs
  have hclaimed : Draft.claimed args = given.length := by
    rw [Draft.claimed, hrecords, List.length_map]
  rw [Level.claim_ok_iff, hrecords, h.fits.entries, h.fits.length_eq, hclaimed, ← List.map_drop]
  constructor
  · refine Fit.eq_of_records h given _ hgiven fun issue hissue => ?_
    exact h.mem_standing issue (List.mem_of_mem_drop hissue)
  · exact congrArg (List.map Issue.record)

end Roll

namespace Recorder

/-! ### What else may be refused -/

theorem fragment_ok_iff (r : Recorder) (args : List Token) :
    (∃ x, r.step (.fragment args) = .ok x) ↔ ∃ x, r.current.claim args = .ok x := by
  constructor
  · rintro ⟨⟨answer, r'⟩, hr⟩
    obtain ⟨_, hs, _⟩ := of_map_eq_ok hr
    obtain ⟨x, hclaim, _⟩ := of_bind_eq_ok hs
    exact ⟨x, hclaim⟩
  · rintro ⟨⟨outer, claimed⟩, hclaim⟩
    rw [step, fragment, hclaim]
    exact ⟨_, rfl⟩

theorem preparedAttributes_ok_iff (prepared : List PreparedAttribute) : ∀ r : Recorder,
    (∃ r', r.preparedAttributes prepared = .ok r') ↔
      ∀ p ∈ prepared, (r.names.attributeText? p.name).isSome := by
  induction prepared with
  | nil => exact fun r => iff_of_true ⟨r, rfl⟩ fun _ hp => nomatch hp
  | cons p prepared ih =>
    intro r
    constructor
    · rintro ⟨r', hr⟩
      exact (preparedAttributes_eq_ok _ hr).1
    · rw [preparedAttributes, List.foldlM_cons, List.forall_mem_cons]
      rintro ⟨hname, hrest⟩
      have hput : r.preparedAttribute p =
          .ok (r.countAttribute.putLeaf (.valued p.name) p.value) := by
        rw [preparedAttribute, valuedAttribute, Names.attributeText_eq hname]
        rfl
      rw [hput]
      exact (ih (r.countAttribute.putLeaf (.valued p.name) p.value).2).2 hrest

/-- An element is opened with arguments whenever the arguments are granted and the names are
known. -/
theorem openWith_ok_iff (r : Recorder) (name : ElementName)
    (prepared : List (AttributeName × String)) (args : List Token) :
    (∃ x, r.step (.openWith name prepared args) = .ok x) ↔
      (∃ x, r.current.claim args = .ok x) ∧ (r.names.elementText? name).isSome ∧
        ∀ p ∈ prepared, (r.names.attributeText? p.1).isSome := by
  have hprepared : (∀ p ∈ prepared, (r.names.attributeText? p.1).isSome) ↔
      ∀ p ∈ prepared.map fun p => PreparedAttribute.mk p.1 p.2,
        (r.names.attributeText? p.name).isSome := by
    rw [List.forall_mem_map]
  rw [hprepared]
  constructor
  · rintro ⟨⟨answer, r'⟩, hr⟩
    obtain ⟨_, hs, _⟩ := of_map_eq_ok hr
    obtain ⟨_, hname, s, hfold, _⟩ := openElementWith_eq_ok hs
    have hattributes := (preparedAttributes_ok_iff _ (r.enter (.element name)
      (r.current.split (Draft.claimed args)).1 #[])).1 ⟨s, hfold⟩
    obtain ⟨x, hclaim, _⟩ := of_bind_eq_ok hs
    exact ⟨⟨x, hclaim⟩, hname, hattributes⟩
  · rintro ⟨⟨⟨outer, claimed⟩, hclaim⟩, hname, hattributes⟩
    obtain ⟨s, hfold⟩ :=
      (preparedAttributes_ok_iff _ (r.enter (.element name) outer #[])).2 hattributes
    have hopen : r.enterElement name outer #[] = .ok (r.enter (.element name) outer #[]) := by
      rw [enterElement, Names.elementText_eq hname]
      rfl
    rw [step, openElementWith, hclaim]
    show ∃ x, Except.map _ (Except.bind (r.enterElement name outer #[]) _) = .ok x
    rw [hopen]
    show ∃ x, Except.map _ (Except.bind (preparedAttributes _ _) _) = .ok x
    rw [hfold]
    exact ⟨_, rfl⟩

end Recorder

/-! ### Granted arguments -/

/-- **Tokens of what stands are not mixed up.**  After any requests, let the arguments that are no
`noop` be tokens of things that stand in the current recording.  A fragment gets them if and only
if they are its last entries, one for one and each as the call recorded it that answered the token;
an element gets them under the same condition if the names are known.  Each token has the kind of
its record. -/
theorem Recorder.Rolls.claims {roll : Roll} {r : Recorder} (h : Rolls roll r) {args : List Token}
    {given : List Issue} (hargs : args.filter (· ≠ .noop) = given.map Issue.token)
    (hgiven : ∀ issue ∈ given, issue ∈ roll.standing) :
    ((∃ x, r.step (.fragment args) = .ok x) ↔ given = roll.lastEntries given.length) ∧
      (∀ name prepared, (∃ x, r.step (.openWith name prepared args) = .ok x) ↔
        given = roll.lastEntries given.length ∧ (r.names.elementText? name).isSome ∧
          ∀ p ∈ prepared, (r.names.attributeText? p.1).isSome) ∧
      ∀ issue ∈ given, r.words[issue.record]?.bind TokenKind.ofWord? = some issue.kind := by
  have hclaim := h.fits.claim_ok_iff hargs hgiven
  refine ⟨(r.fragment_ok_iff args).trans hclaim, fun name prepared => ?_, fun issue hissue => ?_⟩
  · rw [r.openWith_ok_iff, hclaim]
  · exact (h.fits.placed issue (hgiven issue hissue)).kind_eq

/-! ### A label -/

/-- A recorder on which a text and an attribute were recorded after a fragment was dropped. -/
def Recorder.labelled : Recorder where
  current := ⟨.root, 0, 0, #[240, 0, 1, 244, 36], "x", #[.single 0 false, .single 3 true]⟩
  outer := []
  names := Names.standard
  counters := ⟨0, 1, 2, 0, 0, 1⟩
  ids := 0

def Roll.labelled : Roll :=
  ⟨5, ⟨[⟨3, 0, .text⟩, ⟨4, 3, .attr⟩], [⟨3, 0, .text⟩, ⟨4, 3, .attr⟩]⟩, []⟩

theorem Recorder.rolls_labelled : Rolls Roll.labelled labelled := by
  have hbegin : Rolls _ _ := Rolls.granted .new
    (rfl : (Lookup.call .beginFragment).run new = (.ok .beginFragment, new)) rfl
  have hgone : Rolls _ _ := Rolls.granted hbegin
    (rfl : (Lookup.call (.raw "gone")).run _ = (.ok (.raw "gone"), _)) rfl
  have hdrop : Rolls _ _ := Rolls.granted hgone
    (rfl : (Lookup.call .abortFragment).run _ = (.ok .abortFragment, _)) rfl
  have htext : Rolls _ _ := Rolls.granted hdrop
    (rfl : (Lookup.call (.text "x")).run _ = (.ok (.text "x"), _)) rfl
  have hattr : Rolls _ _ := Rolls.granted htext
    (rfl : (Lookup.call (.boolean (.coded ⟨36⟩))).run _ = (.ok (.boolean ⟨36⟩), _)) rfl
  exact hattr

theorem Recorder.labelled_claims :
    Rolls Roll.labelled labelled ∧
      ∃ x, labelled.step (.fragment [.entry .text 0, .noop, .entry .attr 3]) = .ok x := by
  have hargs : [Token.entry .text 0, .noop, .entry .attr 3].filter (· ≠ .noop) =
      Roll.labelled.standing.map Issue.token := by decide
  exact ⟨rolls_labelled, (rolls_labelled.claims hargs fun _ h => h).1.2 (by decide)⟩

/-- A text is recorded by an attempt that fails, an attribute is recorded next, and then the token
of the text is handed to an element. -/
def Expr.mixUp : List Expr :=
  [.attempt [.bind "t" (.text "x")] (some "e"), .id "v", .element (.spelled "div") [.stored "t"]]

/-- **A token that does not stand is granted**: the element takes the attribute at the offset that
the dropped text had. -/
theorem Expr.mixUp_granted :
    let c := course Evaluation.new mixUp
    c.fault = none ∧ c.tokens = [.noop, .entry .attr 0, .entry .element 4] ∧
      c.state.tokens.lookup "t" = some (.entry .text 0) ∧
      c.state.recorder.words[0]?.bind TokenKind.ofWord? = some .attr := by
  decide +kernel

end HtmlTape
