import HtmlTape.Proofs.Draft.Alike
import HtmlTape.Proofs.Recorder.Mirror

/-!
# Recorders that are alike

Two recorders are alike if their levels differ by the codes of the same names alone, and if the
first one knows all names of the second one.  The words of such levels differ, but the places of the
records, the literals and the entries are the same (`Level.Alike`).

Calls that are alike then end alike: with the same fault, or with answers that are alike and
recorders that are alike (`Recorder.Alike.step`, `Recorder.Alike.request`).  In particular both
answer the same offsets, so that the tokens of one recorder are those of the other.
-/

namespace HtmlTape

/-! ### Results that are alike -/

/-- The results are the same fault, or both are granted and are related. -/
inductive Outcome.Alike {α β : Type} (R : α → β → Prop) : Except Fault α → Except Fault β → Prop
    where
  | fault (fault : Fault) : Alike R (.error fault) (.error fault)
  | granted {a : α} {b : β} : R a b → Alike R (.ok a) (.ok b)

theorem Outcome.Alike.bind {α α' β β' : Type} {R : α → α' → Prop} {S : β → β' → Prop}
    {x : Except Fault α} {y : Except Fault α'} (h : Outcome.Alike R x y) {f : α → Except Fault β}
    {g : α' → Except Fault β'} (hfg : ∀ a b, R a b → Outcome.Alike S (f a) (g b)) :
    Outcome.Alike S (x >>= f) (y >>= g) := by
  cases h with
  | fault fault => exact .fault fault
  | granted hR => exact hfg _ _ hR

theorem Outcome.Alike.map {α α' β β' : Type} {R : α → α' → Prop} {S : β → β' → Prop}
    {x : Except Fault α} {y : Except Fault α'} (h : Outcome.Alike R x y) {f : α → β} {g : α' → β'}
    (hfg : ∀ a b, R a b → S (f a) (g b)) : Outcome.Alike S (x.map f) (y.map g) := by
  cases h with
  | fault fault => exact .fault fault
  | granted hR => exact .granted (hfg _ _ hR)

/-! ### Levels -/

/-- The levels differ by the codes of the same names alone. -/
structure Level.Alike (names names' : Names) (level level' : Level) : Prop where
  scope : Scope.Alike names names' level.scope level'.scope
  start : level.start = level'.start
  poolStart : level.poolStart = level'.poolStart
  size : level.words.size = level'.words.size
  pool : level.pool = level'.pool
  entries : level.entries = level'.entries

theorem Scope.Alike.size_head {names names' : Names} {scope scope' : Scope}
    (h : Scope.Alike names names' scope scope') : scope.head.size = scope'.head.size := by
  cases h <;> rfl

namespace Level.Alike

variable {names names' : Names} {level level' : Level}

theorem mono {wider wider' : Names} (h : level.Alike names names' level')
    (hn : names.Extends wider) (hn' : names'.Extends wider') : level.Alike wider wider' level' :=
  { h with scope := h.scope.mono hn hn' }

theorem here_eq (h : level.Alike names names' level') : level.here = level'.here := by
  rw [Level.here, Level.here, h.start, h.scope.size_head, h.size]

theorem poolHere_eq (h : level.Alike names names' level') : level.poolHere = level'.poolHere := by
  rw [Level.poolHere, Level.poolHere, h.poolStart, h.pool]

theorem refs_eq (h : level.Alike names names' level') : level.refs = level'.refs := by
  rw [Level.refs, Level.refs, h.entries]

/-- Leaves of one size leave levels alike. -/
theorem putLeaf (h : level.Alike names names' level') {leaf leaf' : Literal → Leaf} (text : String)
    (hleaf : ∀ l, (leaf l).words.length = (leaf' l).words.length ∧
      (leaf l).isAttribute = (leaf' l).isAttribute) :
    (level.putLeaf leaf text).Alike names names' (level'.putLeaf leaf' text) where
  scope := h.scope
  start := h.start
  poolStart := h.poolStart
  size := by
    show (level.words ++ (leaf ⟨level.poolHere, _⟩).words).size =
      (level'.words ++ (leaf' ⟨level'.poolHere, _⟩).words).size
    have hsize : ∀ (words : Array Nat) (more : List Nat),
        (words ++ more).size = words.size + more.length := by
      intro words more
      rw [← Array.length_toList, Array.toList_appendList, List.length_append, Array.length_toList]
    rw [hsize, hsize, h.size, h.poolHere_eq, (hleaf _).1]
  pool := congrArg (· ++ text) h.pool
  entries := by
    show level.entries.push (.single level.here (leaf ⟨level.poolHere, _⟩).isAttribute) =
      level'.entries.push (.single level'.here (leaf' ⟨level'.poolHere, _⟩).isAttribute)
    rw [h.entries, h.here_eq, h.poolHere_eq, (hleaf _).2]

theorem absorb (h : level.Alike names names' level') {words words' : Array Nat}
    (hwords : words.size = words'.size) (pool : String) (entry : Entry) :
    (level.absorb words pool entry).Alike names names' (level'.absorb words' pool entry) where
  scope := h.scope
  start := h.start
  poolStart := h.poolStart
  size := by
    show (level.words ++ words).size = (level'.words ++ words').size
    rw [Array.size_append, Array.size_append, h.size, hwords]
  pool := congrArg (· ++ pool) h.pool
  entries := congrArg (Array.push · entry) h.entries

theorem split (h : level.Alike names names' level') (n : Nat) :
    (level.split n).1.Alike names names' (level'.split n).1 ∧
      (level.split n).2 = (level'.split n).2 := by
  have hentries := h.entries
  refine ⟨{ h with entries := ?_ }, ?_⟩
  · show level.entries.extract 0 _ = level'.entries.extract 0 _
    rw [hentries]
  · show level.entries.extract _ _ = level'.entries.extract _ _
    rw [hentries]

/-- What is taken away from levels that are alike is the same, and what is left is alike. -/
theorem claim (h : level.Alike names names' level') (args : List Token) :
    Outcome.Alike (fun p p' => p.1.Alike names names' p'.1 ∧ p.2 = p'.2) (level.claim args)
      (level'.claim args) := by
  obtain ⟨hrest, hclaimed⟩ := h.split (args.filterMap Token.record?).length
  rw [Level.claim, Level.claim]
  simp only [h.entries, hclaimed]
  split
  · exact .fault _
  · split
    · exact .fault _
    · exact .granted ⟨hrest, rfl⟩

theorem adopt (h : level.Alike names names' level') (count : Nat) :
    Outcome.Alike (fun p p' => p.1.Alike names names' p'.1 ∧ p.2 = p'.2) (level.adopt count)
      (level'.adopt count) := by
  rw [Level.adopt, Level.adopt, h.entries]
  split
  · exact .fault _
  · exact .granted (h.split count)

end Level.Alike

/-! ### Recorders -/

namespace Recorder

/-- The first recorder knows all names of the second one, and their levels differ by the codes of
the same names alone. -/
structure Alike (r s : Recorder) : Prop where
  names : r.names.Covers s.names
  current : r.current.Alike r.names s.names s.current
  outer : List.Forall₂ (Level.Alike r.names s.names) r.outer s.outer

variable {r s : Recorder}

theorem alike_new : new.Alike new where
  names := (Names.Extends.refl _).covers Names.sound_standard Names.sound_standard
  current := ⟨.root, rfl, rfl, rfl, rfl, rfl⟩
  outer := .nil

namespace Alike

theorem congr (h : r.Alike s) {r' s' : Recorder} (hc : r'.current = r.current)
    (ho : r'.outer = r.outer) (hn : r'.names = r.names) (hc' : s'.current = s.current)
    (ho' : s'.outer = s.outer) (hn' : s'.names = s.names) : r'.Alike s' := by
  refine ⟨?_, ?_, ?_⟩
  · rw [hn, hn']
    exact h.names
  · rw [hc, hc', hn, hn']
    exact h.current
  · rw [ho, ho', hn, hn']
    exact h.outer

theorem addNames (h : r.Alike s) {names names' : Names} (hcovers : names.Covers names')
    (hn : r.names.Extends names) (hn' : s.names.Extends names') :
    Alike { r with names } { s with names := names' } :=
  ⟨hcovers, h.current.mono hn hn', h.outer.imp fun _ _ h => h.mono hn hn'⟩

/-! ### Recording leaves -/

abbrev Both (R : α → α → Prop) : α × Recorder → α × Recorder → Prop :=
  fun p p' => R p.1 p'.1 ∧ p.2.Alike p'.2

theorem putLeaf (h : r.Alike s) {leaf leaf' : Literal → Leaf} (text : String)
    (hleaf : ∀ l, (leaf l).words.length = (leaf' l).words.length ∧
      (leaf l).isAttribute = (leaf' l).isAttribute) :
    Both (· = ·) (r.putLeaf leaf text) (s.putLeaf leaf' text) :=
  ⟨h.current.here_eq, h.names, h.current.putLeaf text hleaf, h.outer⟩

theorem valuedAttribute (h : r.Alike s) {name name' : AttributeName}
    (hname : r.names.SameAttribute s.names name name') (value : String) :
    Outcome.Alike (Both (· = ·)) (r.valuedAttribute name value) (s.valuedAttribute name' value) := by
  obtain ⟨text, ht, ht'⟩ := hname
  rw [Recorder.valuedAttribute, Recorder.valuedAttribute, Names.attributeText, Names.attributeText,
    ht, ht']
  have hcount : r.countAttribute.Alike s.countAttribute := h.congr rfl rfl rfl rfl rfl rfl
  exact .granted (hcount.putLeaf value fun _ => ⟨rfl, rfl⟩)

theorem booleanAttribute (h : r.Alike s) {name name' : AttributeName}
    (hname : r.names.SameAttribute s.names name name') :
    Outcome.Alike (Both (· = ·)) (r.booleanAttribute name) (s.booleanAttribute name') := by
  obtain ⟨text, ht, ht'⟩ := hname
  rw [Recorder.booleanAttribute, Recorder.booleanAttribute, Names.attributeText,
    Names.attributeText, ht, ht']
  have hcount : r.countAttribute.Alike s.countAttribute := h.congr rfl rfl rfl rfl rfl rfl
  exact .granted (hcount.putLeaf "" fun _ => ⟨rfl, rfl⟩)

/-! ### Opening levels -/

theorem enter (h : r.Alike s) {scope scope' : Scope}
    (hscope : Scope.Alike r.names s.names scope scope') {outer outer' : Level}
    (houter : outer.Alike r.names s.names outer') (entries : Array Entry) :
    (r.enter scope outer entries).Alike (s.enter scope' outer' entries) where
  names := h.names
  current := ⟨hscope, houter.here_eq, houter.poolHere_eq, rfl, rfl, rfl⟩
  outer := .cons houter h.outer

theorem enterElement (h : r.Alike s) {name name' : ElementName}
    (hname : r.names.SameElement s.names name name') {outer outer' : Level}
    (houter : outer.Alike r.names s.names outer') (entries : Array Entry) :
    Outcome.Alike Recorder.Alike (r.enterElement name outer entries)
      (s.enterElement name' outer' entries) := by
  obtain ⟨text, ht, ht'⟩ := hname
  rw [Recorder.enterElement, Recorder.enterElement, Names.elementText, Names.elementText, ht, ht']
  exact .granted (h.enter (.element ⟨text, ht, ht'⟩) houter entries)

theorem preparedAttributes {names names' : Names} {prepared prepared' : List (AttributeName × String)}
    (hprepared : List.Forall₂ (fun p p' => names.SameAttribute names' p.1 p'.1 ∧ p.2 = p'.2)
      prepared prepared') :
    ∀ {r s : Recorder}, r.Alike s → r.names = names → s.names = names' →
      Outcome.Alike Recorder.Alike
        ((prepared.map fun p => PreparedAttribute.mk p.1 p.2).foldlM
          (fun r p => (r.preparedAttribute p).map (·.2)) r)
        ((prepared'.map fun p => PreparedAttribute.mk p.1 p.2).foldlM
          (fun r p => (r.preparedAttribute p).map (·.2)) s) := by
  induction hprepared with
  | nil => exact fun h _ _ => .granted h
  | @cons p p' prepared prepared' hp _ ih =>
    intro r s h hn hn'
    obtain ⟨name, value⟩ := p
    obtain ⟨name', value'⟩ := p'
    obtain ⟨⟨text, ht, ht'⟩, hvalue⟩ := hp
    subst hn hn'
    cases hvalue
    have hcount : r.countAttribute.Alike s.countAttribute := h.congr rfl rfl rfl rfl rfl rfl
    have hleaf : Both (· = ·) (r.countAttribute.putLeaf (.valued name) value)
        (s.countAttribute.putLeaf (.valued name') value) :=
      hcount.putLeaf value fun _ => ⟨rfl, rfl⟩
    have hr : (r.preparedAttribute ⟨name, value⟩).map (·.2) =
        .ok (r.countAttribute.putLeaf (.valued name) value).2 := by
      rw [preparedAttribute, Recorder.valuedAttribute, Names.attributeText, ht]
      rfl
    have hs : (s.preparedAttribute ⟨name', value⟩).map (·.2) =
        .ok (s.countAttribute.putLeaf (.valued name') value).2 := by
      rw [preparedAttribute, Recorder.valuedAttribute, Names.attributeText, ht']
      rfl
    rw [List.map_cons, List.map_cons, List.foldlM_cons, List.foldlM_cons, hr, hs]
    exact ih hleaf.2 rfl rfl

theorem openElementWith (h : r.Alike s) {name name' : ElementName}
    (hname : r.names.SameElement s.names name name')
    {prepared prepared' : List (AttributeName × String)}
    (hprepared : List.Forall₂ (fun p p' => r.names.SameAttribute s.names p.1 p'.1 ∧ p.2 = p'.2)
      prepared prepared') (args : List Token) :
    Outcome.Alike Recorder.Alike
      (r.openElementWith name (prepared.map fun p => ⟨p.1, p.2⟩) args)
      (s.openElementWith name' (prepared'.map fun p => ⟨p.1, p.2⟩) args) := by
  refine (h.current.claim args).bind fun p p' hp => ?_
  obtain ⟨outer, claimed⟩ := p
  obtain ⟨outer', claimed'⟩ := p'
  obtain ⟨houter, hclaimed⟩ := hp
  cases hclaimed
  obtain ⟨text, ht, ht'⟩ := hname
  simp only [Recorder.enterElement, Names.elementText, ht, ht']
  have henter : (r.enter (.element name) outer #[]).Alike (s.enter (.element name') outer' #[]) :=
    h.enter (.element ⟨text, ht, ht'⟩) houter #[]
  refine (preparedAttributes hprepared henter rfl rfl).bind fun t t' halike => .granted ?_
  exact ⟨halike.names, { halike.current with
    entries := congrArg (· ++ claimed) halike.current.entries }, halike.outer⟩

theorem adopt (h : r.Alike s) {name name' : ElementName}
    (hname : r.names.SameElement s.names name name') (count : Nat) :
    Outcome.Alike Recorder.Alike (r.adopt name count) (s.adopt name' count) := by
  refine (h.current.adopt count).bind fun p p' hp => ?_
  obtain ⟨outer, claimed⟩ := p
  obtain ⟨outer', claimed'⟩ := p'
  obtain ⟨houter, hclaimed⟩ := hp
  cases hclaimed
  exact h.enterElement hname houter claimed

/-! ### Closing levels -/

theorem elementWords_size {name name' : ElementName} {words words' : Array Nat}
    (h : words.size = words'.size) (refs : List Ref) :
    (elementWords name words refs).size = (elementWords name' words' refs).size := by
  simp only [elementWords, Array.size_append, h]
  rfl

theorem closeElement (h : r.Alike s) :
    Outcome.Alike (Both (· = ·)) r.closeElement s.closeElement := by
  obtain ⟨⟨scope, start, poolStart, words, pool, entries⟩, outer, names, counters, ids⟩ := r
  obtain ⟨⟨scope', start', poolStart', words', pool', entries'⟩, outer', names', counters', ids'⟩ := s
  obtain ⟨hnames, ⟨hscope, hstart, hpoolStart, hsize, hpool, hentries⟩, houter⟩ := h
  simp only at hnames hscope hstart hpoolStart hsize hpool hentries houter
  subst hstart hpoolStart hpool hentries
  cases hscope with
  | root => exact .fault _
  | fragment => exact .fault _
  | @element name name' hname =>
    cases houter with
    | nil => exact .fault _
    | @cons parent parent' outer outer' hparent houter =>
      have hkind := hname.kind_eq hnames
      obtain ⟨text, ht, ht'⟩ := hname
      simp only [Recorder.closeElement, Level.refs, hkind, Names.elementText, ht, ht']
      generalize entries.toList.flatMap Entry.refs = refs
      by_cases hv : name'.kind.isVoid ∧ refs.any (!·.isAttribute)
      · rw [if_pos hv, if_pos hv]
        exact .fault _
      · rw [if_neg hv, if_neg hv]
        exact .granted ⟨rfl, hnames, hparent.absorb (elementWords_size hsize refs) pool _, houter⟩

theorem endFragment (h : r.Alike s) :
    Outcome.Alike (Both (· = ·)) r.endFragment s.endFragment := by
  obtain ⟨⟨scope, start, poolStart, words, pool, entries⟩, outer, names, counters, ids⟩ := r
  obtain ⟨⟨scope', start', poolStart', words', pool', entries'⟩, outer', names', counters', ids'⟩ := s
  obtain ⟨hnames, hcurrent, houter⟩ := h
  have hhere := hcurrent.here_eq
  obtain ⟨hscope, hstart, hpoolStart, hsize, hpool, hentries⟩ := hcurrent
  simp only at hnames hscope hstart hpoolStart hsize hpool hentries houter hhere
  subst hstart hpoolStart hpool hentries
  cases hscope with
  | root => exact .fault _
  | element hname => exact .fault _
  | fragment =>
    cases houter with
    | nil => exact .fault _
    | @cons parent parent' outer outer' hparent houter =>
      simp only [Recorder.endFragment, Level.refs, hhere]
      generalize entries.toList.flatMap Entry.refs = refs
      refine .granted ⟨rfl, hnames, hparent.absorb ?_ pool _, houter⟩
      simp only [Array.size_append, hsize]

theorem fragment (h : r.Alike s) (args : List Token) :
    Outcome.Alike (Both (· = ·)) (r.fragment args) (s.fragment args) := by
  refine (h.current.claim args).bind fun p p' hp => ?_
  obtain ⟨outer, claimed⟩ := p
  obtain ⟨outer', claimed'⟩ := p'
  obtain ⟨houter, hclaimed⟩ := hp
  cases hclaimed
  exact (h.enter .fragment houter claimed).endFragment

theorem abortFragment (h : r.Alike s) :
    Outcome.Alike Recorder.Alike r.abortFragment s.abortFragment := by
  obtain ⟨⟨scope, start, poolStart, words, pool, entries⟩, outer, names, counters, ids⟩ := r
  obtain ⟨⟨scope', start', poolStart', words', pool', entries'⟩, outer', names', counters', ids'⟩ := s
  obtain ⟨hnames, hcurrent, houter⟩ := h
  have hscope := hcurrent.scope
  simp only at hnames hscope houter
  cases hscope with
  | root => exact .fault _
  | element hname => exact .fault _
  | fragment =>
    cases houter with
    | nil => exact .fault _
    | cons hparent houter => exact .granted ⟨hnames, hparent, houter⟩

/-! ### Finishing -/

theorem finish (h : r.Alike s) :
    Outcome.Alike (Both fun _ _ => True) r.finish s.finish := by
  have hlength := h.outer.length_eq
  have hrefs := h.current.refs_eq
  have hinnermost : Outcome.Alike (· = ·) r.innermostName s.innermostName := by
    have hscope := h.current.scope
    rw [innermostName, innermostName]
    cases hr : r.current.scope <;> cases hs : s.current.scope <;> rw [hr, hs] at hscope <;>
      cases hscope
    · exact .granted rfl
    · rename_i hname
      obtain ⟨text, ht, ht'⟩ := hname
      simp only [Names.elementText, ht, ht']
      exact .granted rfl
    · exact .granted rfl
  rw [Recorder.finish, Recorder.finish, hrefs]
  by_cases ho : r.outer = []
  · have ho' : s.outer = [] := List.length_eq_zero_iff.1 (by rw [← hlength, ho]; rfl)
    rw [if_neg (not_not_intro ho), if_neg (not_not_intro ho')]
    by_cases hattr : s.current.refs.any Ref.isAttribute
    · simp only [if_pos hattr]
      exact .fault _
    · simp only [if_neg hattr]
      exact .granted ⟨trivial, alike_new⟩
  · have ho' : s.outer ≠ [] := fun ho' => ho (List.length_eq_zero_iff.1 (by rw [hlength, ho']; rfl))
    rw [if_pos ho, if_pos ho', hlength]
    refine hinnermost.bind fun name name' hname => ?_
    cases hname
    exact .fault _

/-! ### Calls -/

end Alike

/-- The answers are alike: offsets and refused names are the same, and codes are the same name.
Ids and finished recordings may differ. -/
inductive AnswersAlike (names names' : Names) : Answer → Answer → Prop where
  | done : AnswersAlike names names' .done .done
  | record (offset : Nat) : AnswersAlike names names' (.record offset) (.record offset)
  | recording (t t' : Recording) : AnswersAlike names names' (.recording t) (.recording t')
  | id (id id' : String) : AnswersAlike names names' (.id id) (.id id')
  | element {name name' : ElementName} : names.SameElement names' name name' →
    AnswersAlike names names' (.element name) (.element name')
  | attr {name name' : AttributeName} : names.SameAttribute names' name name' →
    AnswersAlike names names' (.attr name) (.attr name')
  | refused (e : NameError) : AnswersAlike names names' (.refused e) (.refused e)

/-- The answers and the recorders afterwards are alike. -/
def StepsAlike (p p' : Answer × Recorder) : Prop :=
  AnswersAlike p.2.names p'.2.names p.1 p'.1 ∧ p.2.Alike p'.2

theorem stepsAlike_ofRecord {p p' : Nat × Recorder} (h : Alike.Both (· = ·) p p') :
    StepsAlike (Answer.ofRecord p) (Answer.ofRecord p') := by
  obtain ⟨o, r⟩ := p
  obtain ⟨o', r'⟩ := p'
  obtain ⟨ho, hr⟩ := h
  cases ho
  exact ⟨.record o, hr⟩

theorem stepsAlike_ofRecorder {r s : Recorder} (h : r.Alike s) :
    StepsAlike (Answer.ofRecorder r) (Answer.ofRecorder s) :=
  ⟨.done, h⟩

/-- **Calls that are alike end alike** in recorders that are alike. -/
theorem Alike.step (h : r.Alike s) {c c' : Call ElementName AttributeName}
    (hc : r.names.SameCall s.names c c') : Outcome.Alike StepsAlike (r.step c) (s.step c') := by
  have hcount : r.countText.Alike s.countText := h.congr rfl rfl rfl rfl rfl rfl
  cases hc with
  | text value => exact .granted (stepsAlike_ofRecord (hcount.putLeaf value fun _ => ⟨rfl, rfl⟩))
  | raw value => exact .granted (stepsAlike_ofRecord (hcount.putLeaf value fun _ => ⟨rfl, rfl⟩))
  | doctype => exact .granted (stepsAlike_ofRecord (h.putLeaf "" fun _ => ⟨rfl, rfl⟩))
  | valued value hname => exact (h.valuedAttribute hname value).map fun _ _ => stepsAlike_ofRecord
  | boolean hname => exact (h.booleanAttribute hname).map fun _ _ => stepsAlike_ofRecord
  | openElement hname =>
    exact (h.enterElement hname h.current #[]).map fun _ _ => stepsAlike_ofRecorder
  | openWith args hname hprepared =>
    exact (h.openElementWith hname hprepared args).map fun _ _ => stepsAlike_ofRecorder
  | adopt count hname => exact (h.adopt hname count).map fun _ _ => stepsAlike_ofRecorder
  | closeElement => exact h.closeElement.map fun _ _ => stepsAlike_ofRecord
  | beginFragment => exact .granted ⟨.done, h.enter .fragment h.current #[]⟩
  | fragment args => exact (h.fragment args).map fun _ _ => stepsAlike_ofRecord
  | endFragment => exact h.endFragment.map fun _ _ => stepsAlike_ofRecord
  | abortFragment => exact h.abortFragment.map fun _ _ => stepsAlike_ofRecorder
  | finish => exact h.finish.map fun p p' hp => ⟨.recording p.1 p'.1, hp.2⟩
  | reset => exact .granted ⟨.done, alike_new⟩
  | nextId => exact .granted ⟨.id _ _, h.congr rfl rfl rfl rfl rfl rfl⟩
  | internElement hname => exact .granted ⟨.element hname, h⟩
  | internAttribute hname => exact .granted ⟨.attr hname, h⟩

/-- **Requests that are alike end alike**, unless the first recorder has no code left for a name. -/
theorem Alike.request (h : r.Alike s) {c c' : SpelledCall}
    (hc : r.names.SameRequest s.names c c')
    (hroom : ∀ t, r.request c ≠ .ok (.refused .outOfCodes, t)) :
    Outcome.Alike StepsAlike (r.request c) (s.request c') := by
  have hends := Lookup.call_twin hc r s (.refl _) (.refl _) h.names
  obtain ⟨result, names, _, hrun⟩ := Lookup.call_local c r.names
  obtain ⟨result', names', _, hrun'⟩ := Lookup.call_local c' s.names
  rw [hrun r rfl, hrun' s rfl] at hends
  rw [Recorder.request, hrun r rfl] at hroom ⊢
  rw [Recorder.request, hrun' s rfl]
  cases hends with
  | found hcovers hn hn' hcall => exact (h.addNames hcovers hn hn').step hcall
  | refused e hcovers hn hn' => exact .granted ⟨.refused e, h.addNames hcovers hn hn'⟩
  | full => exact absurd rfl (hroom _)

end Recorder

end HtmlTape
