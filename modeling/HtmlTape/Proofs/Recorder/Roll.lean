import HtmlTape.Proofs.Recorder.Mirror

/-!
# Who recorded what

A roll is kept beside a recorder.  For each record of the current recording it tells which call
made it and what kind of token stands for it, for each level the records made in it and the entries
it owns (`Roll.note`).  What a dropped fragment recorded, and what was recorded before the document
was finished or reset, is struck off the roll.

The roll fits the levels (`Roll.Fit`): what it tells of stands in the words, at different offsets
(`Roll.Fit.nodup`), each record with the tag of its kind (`Roll.Fit.placed`).  One lemma for each
operation on levels keeps this up.
-/

namespace HtmlTape

/-! ### Rolls -/

/-- A record that stands, with the number of the call that made it. -/
structure Issue where
  call : Nat
  record : Nat
  kind : TokenKind
deriving DecidableEq

/-- The token that the call answered, unless the record is a prepared attribute; there is no token
for those. -/
def Issue.token (issue : Issue) : Token := .entry issue.kind issue.record

structure Page where
  /-- The entries that the level owns. -/
  entries : List Issue
  /-- What was recorded inside of it. -/
  standing : List Issue
deriving DecidableEq

def Page.add (page : Page) (issue : Issue) : Page :=
  ⟨page.entries ++ [issue], page.standing ++ [issue]⟩

structure Roll where
  /-- How many calls there were. -/
  calls : Nat
  /-- The page of the innermost level. -/
  current : Page
  outer : List Page
deriving DecidableEq

namespace Roll

def new : Roll := ⟨0, ⟨[], []⟩, []⟩

/-- Everything that stands in the current recording. -/
def standing (roll : Roll) : List Issue := (roll.current :: roll.outer).flatMap Page.standing

def lastEntries (roll : Roll) (count : Nat) : List Issue :=
  roll.current.entries.drop (roll.current.entries.length - count)

def add (roll : Roll) (kind : TokenKind) (record : Nat) : Roll :=
  { roll with current := roll.current.add ⟨roll.calls, record, kind⟩ }

/-- A level was opened with prepared attributes and with the last entries of the level around
it. -/
def enter (roll : Roll) (prepared : List Nat) (count : Nat) : Roll :=
  let first := prepared.map fun record => Issue.mk roll.calls record .attr
  { roll with
    current := ⟨first ++ roll.lastEntries count, first⟩
    outer := ⟨roll.current.entries.take (roll.current.entries.length - count),
      roll.current.standing⟩ :: roll.outer }

/-- The innermost level has become an entry of the level around it. -/
def close (roll : Roll) (kind : TokenKind) (record : Nat) : Roll :=
  match roll.outer with
  | page :: outer =>
    { roll with
      current := Page.add ⟨page.entries, page.standing ++ roll.current.standing⟩
        ⟨roll.calls, record, kind⟩
      outer }
  | [] => roll

def drop (roll : Roll) : Roll :=
  match roll.outer with
  | page :: outer => { roll with current := page, outer }
  | [] => roll

/-- What a granted call does to the pages; `r` is the recorder after it. -/
def turn (roll : Roll) (r : Recorder) : Call ElementName AttributeName → Answer → Roll
  | .text _, .record o => roll.add .text o
  | .raw _, .record o => roll.add .raw o
  | .doctype, .record o => roll.add .doctype o
  | .valued .., .record o | .boolean _, .record o => roll.add .attr o
  | .openElement _, .done | .beginFragment, .done => roll.enter [] 0
  | .openWith _ prepared args, .done =>
    roll.enter ((r.current.entries.toList.take prepared.length).map Entry.record)
      (Draft.claimed args)
  | .adopt _ count, .done => roll.enter [] count
  | .closeElement, .record o => roll.close .element o
  | .fragment args, .record o => (roll.enter [] (Draft.claimed args)).close .fragment o
  | .endFragment, .record o => roll.close .fragment o
  | .abortFragment, .done => roll.drop
  | .finish, .recording _ | .reset, .done => { new with calls := roll.calls }
  | _, _ => roll

def note (roll : Roll) (r : Recorder) (call : Call ElementName AttributeName) (answer : Answer) :
    Roll :=
  let roll := roll.turn r call answer
  { roll with calls := roll.calls + 1 }

end Roll

/-- The recorder was new and has answered requests, and the roll was kept.  A request whose names
are refused records nothing. -/
inductive Recorder.Rolls : Roll → Recorder → Prop where
  | new : Rolls Roll.new Recorder.new
  | granted {roll : Roll} {r s r' : Recorder} {request : SpelledCall}
    {call : Call ElementName AttributeName} {answer : Answer} :
    Rolls roll r → (Lookup.call request).run r = (.ok call, s) → s.step call = .ok (answer, r') →
    Rolls (roll.note r' call answer) r'
  | refused {roll : Roll} {r s : Recorder} {request : SpelledCall} {e : NameError} :
    Rolls roll r → (Lookup.call request).run r = (.error e, s) →
    Rolls { roll with calls := roll.calls + 1 } s

/-! ### Words and kinds -/

def Tag.tokenKind? : Tag → Option TokenKind
  | .text => some .text
  | .raw => some .raw
  | .doctype => some .doctype
  | .valued | .boolean => some .attr
  | .element => some .element
  | .fragment => some .fragment
  | .elementEnd | .root => none

def TokenKind.ofWord? (w : Nat) : Option TokenKind := (Tag.ofWord? w).bind Tag.tokenKind?

/-- The record of the issue is among some words, the first of which is at an offset. -/
structure Issue.At (issue : Issue) (offset : Nat) (words : Array Nat) : Prop where
  le : offset ≤ issue.record
  kind_eq : words[issue.record - offset]?.bind TokenKind.ofWord? = some issue.kind

namespace Issue.At

variable {issue : Issue} {offset : Nat} {words : Array Nat}

theorem lt (h : issue.At offset words) : issue.record < offset + words.size := by
  obtain ⟨w, hw, _⟩ := Option.bind_eq_some_iff.1 h.kind_eq
  obtain ⟨hlt, _⟩ := Array.getElem?_eq_some_iff.1 hw
  omega

theorem append (h : issue.At offset words) (after : Array Nat) :
    issue.At offset (words ++ after) := by
  have hlt := h.lt
  have hle := h.le
  refine ⟨hle, ?_⟩
  rw [Array.getElem?_append_left (by omega)]
  exact h.kind_eq

theorem prepend {before : Array Nat} (h : issue.At (offset + before.size) words) :
    issue.At offset (before ++ words) := by
  have hle := h.le
  refine ⟨by omega, ?_⟩
  rw [Array.getElem?_append_right (by omega), Nat.sub_sub]
  exact h.kind_eq

end Issue.At

namespace Level

def inner (level : Level) : Nat := level.start + level.scope.head.size

/-- The offset of the next word, of the innermost level of some. -/
def hereOf : List Level → Nat
  | [] => 0
  | level :: _ => level.here

theorem start_le_here (level : Level) : level.start ≤ level.here := by
  rw [here, Nat.add_assoc]
  exact Nat.le_add_right _ _

end Level

/-! ### Pages and levels -/

/-- The page tells of the level. -/
structure Page.Fits (page : Page) (level : Level) : Prop where
  entries : level.entries.toList.map Entry.record = page.entries.map Issue.record
  placed : ∀ issue ∈ page.standing, issue.At level.inner level.words
  nodup : (page.standing.map Issue.record).Nodup

theorem Page.Fits.length_eq {page : Page} {level : Level} (h : page.Fits level) :
    level.entries.toList.length = page.entries.length := by
  have := congrArg List.length h.entries
  rwa [List.length_map, List.length_map] at this

/-- The pages tell of the levels, the innermost first; what a level owns stands in it or in a level
around it. -/
inductive Roll.Fit : List Page → List Level → Prop where
  | nil : Fit [] []
  | cons {page : Page} {level : Level} {pages : List Page} {levels : List Level} :
    page.Fits level → level.start = Level.hereOf levels →
    (∀ issue ∈ page.entries, issue ∈ (page :: pages).flatMap Page.standing) →
    Fit pages levels → Fit (page :: pages) (level :: levels)

namespace Roll.Fit

variable {page : Page} {pages : List Page} {level level' : Level} {levels : List Level}

theorem fits (h : Roll.Fit (page :: pages) (level :: levels)) : page.Fits level := by
  cases h with
  | cons hpage _ _ _ => exact hpage

theorem start_eq (h : Roll.Fit (page :: pages) (level :: levels)) :
    level.start = Level.hereOf levels := by
  cases h with
  | cons _ hstart _ _ => exact hstart

theorem outer (h : Roll.Fit (page :: pages) (level :: levels)) : Roll.Fit pages levels := by
  cases h with
  | cons _ _ _ hbelow => exact hbelow

theorem exists_above {parent : Level}
    (h : Roll.Fit (page :: pages) (level :: parent :: levels)) :
    ∃ above rest, pages = above :: rest := by
  cases h.outer with
  | cons _ _ _ _ => exact ⟨_, _, rfl⟩

theorem mem_standing (h : Roll.Fit (page :: pages) (level :: levels)) :
    ∀ issue ∈ page.entries, issue ∈ (page :: pages).flatMap Page.standing := by
  cases h with
  | cons _ _ hmem _ => exact hmem

/-- Everything that stands lies before the next word. -/
theorem lt_here (h : Roll.Fit pages levels) :
    ∀ issue ∈ pages.flatMap Page.standing, issue.record < Level.hereOf levels := by
  induction h with
  | nil => intro issue hissue; cases hissue
  | @cons page level pages levels hpage hstart _ _ ih =>
    intro issue hissue
    rw [List.flatMap_cons] at hissue
    rcases List.mem_append.1 hissue with hissue | hissue
    · exact (hpage.placed issue hissue).lt
    · have hlt := ih issue hissue
      rw [← hstart] at hlt
      exact Nat.lt_of_lt_of_le hlt level.start_le_here

/-- **Different records stand at different offsets.** -/
theorem nodup (h : Roll.Fit pages levels) :
    ((pages.flatMap Page.standing).map Issue.record).Nodup := by
  induction h with
  | nil => exact List.nodup_nil
  | @cons page level pages levels hpage hstart _ hbelow ih =>
    rw [List.flatMap_cons, List.map_append]
    refine List.nodup_append.2 ⟨hpage.nodup, ih, ?_⟩
    intro record hrecord record' hrecord' heq
    obtain ⟨issue, hissue, rfl⟩ := List.mem_map.1 hrecord
    obtain ⟨issue', hissue', rfl⟩ := List.mem_map.1 hrecord'
    have hlt := hbelow.lt_here issue' hissue'
    have hle := (hpage.placed issue hissue).le
    rw [Level.inner, hstart] at hle
    omega

theorem size_words (h : Roll.Fit pages levels) :
    (Level.wordsAll levels).size = Level.hereOf levels := by
  induction h with
  | nil => rfl
  | @cons page level pages levels _ hstart _ _ ih =>
    rw [Level.wordsAll_cons, Array.size_append, Array.size_append, ih, ← hstart]
    rfl

/-- **A record has the tag of its kind.** -/
theorem placed (h : Roll.Fit pages levels) :
    ∀ issue ∈ pages.flatMap Page.standing, issue.At 0 (Level.wordsAll levels) := by
  induction h with
  | nil => intro issue hissue; cases hissue
  | @cons page level pages levels hpage hstart _ hbelow ih =>
    intro issue hissue
    rw [Level.wordsAll_cons]
    rw [List.flatMap_cons] at hissue
    rcases List.mem_append.1 hissue with hissue | hissue
    · have hinner : 0 + (Level.wordsAll levels ++ level.scope.head).size = level.inner := by
        rw [Nat.zero_add, Array.size_append, hbelow.size_words, ← hstart]
        rfl
      refine Issue.At.prepend ?_
      rw [hinner]
      exact hpage.placed issue hissue
    · exact ((ih issue hissue).append _).append _

end Roll.Fit

/-! ### Levels that grow -/

/-- A level that has grown by some words, with one more entry. -/
theorem Page.Fits.grow {page : Page} {level level' : Level} (h : page.Fits level)
    {words : Array Nat} {entry : Entry} {more : List Issue} {issue : Issue}
    (hinner : level'.inner = level.inner) (hwords : level'.words = level.words ++ words)
    (hentries : level'.entries = level.entries.push entry) (hrecord : entry.record = issue.record)
    (hplaced : ∀ i ∈ more ++ [issue], i.At level.here words)
    (hnodup : ((more ++ [issue]).map Issue.record).Nodup) :
    (Page.add ⟨page.entries, page.standing ++ more⟩ issue).Fits level' := by
  refine ⟨?_, fun i hi => ?_, ?_⟩
  · rw [hentries, Array.toList_push, List.map_append, h.entries, Page.add, List.map_append,
      List.map_singleton, List.map_singleton, hrecord]
  · rw [Page.add, List.append_assoc] at hi
    rw [hinner, hwords]
    rcases List.mem_append.1 hi with hi | hi
    · exact (h.placed i hi).append words
    · exact (hplaced i hi).prepend
  · rw [Page.add, List.append_assoc, List.map_append]
    refine List.nodup_append.2 ⟨h.nodup, hnodup, ?_⟩
    intro record hrecord record' hrecord' heq
    obtain ⟨i, hi, rfl⟩ := List.mem_map.1 hrecord
    obtain ⟨i', hi', rfl⟩ := List.mem_map.1 hrecord'
    have hlt : i.record < level.here := (h.placed i hi).lt
    have hle := (hplaced i' hi').le
    omega

namespace Roll.Fit

variable {page : Page} {pages : List Page} {level level' : Level} {levels : List Level}

theorem nil_root : Roll.Fit [⟨[], []⟩] [Level.root] := by
  refine .cons ⟨rfl, ?_, List.nodup_nil⟩ rfl ?_ .nil
  · intro issue hissue
    cases hissue
  · intro issue hissue
    cases hissue

theorem grow (h : Roll.Fit (page :: pages) (level :: levels)) {words : Array Nat} {entry : Entry}
    {more : List Issue} {issue : Issue} (hstart : level'.start = level.start)
    (hscope : level'.scope = level.scope) (hwords : level'.words = level.words ++ words)
    (hentries : level'.entries = level.entries.push entry) (hrecord : entry.record = issue.record)
    (hplaced : ∀ i ∈ more ++ [issue], i.At level.here words)
    (hnodup : ((more ++ [issue]).map Issue.record).Nodup) :
    Roll.Fit (Page.add ⟨page.entries, page.standing ++ more⟩ issue :: pages)
      (level' :: levels) := by
  have hmem := h.mem_standing
  have hinner : level'.inner = level.inner := by rw [Level.inner, hstart, hscope, Level.inner]
  cases h with
  | cons hpage hbase _ hbelow =>
    refine .cons (hpage.grow hinner hwords hentries hrecord hplaced hnodup) (hstart ▸ hbase)
      (fun i hi => ?_) hbelow
    rw [Page.add] at hi ⊢
    rw [List.flatMap_cons, List.append_assoc, List.append_assoc]
    rcases List.mem_append.1 hi with hi | hi
    · have hi := hmem i hi
      rw [List.flatMap_cons] at hi
      rcases List.mem_append.1 hi with hi | hi
      · exact List.mem_append_left _ hi
      · exact List.mem_append_right _ (List.mem_append_right _ (List.mem_append_right _ hi))
    · exact List.mem_append_right _ (List.mem_append_right _ (List.mem_append_left _ hi))

theorem putLeaf (h : Roll.Fit (page :: pages) (level :: levels)) {leaf : Literal → Leaf}
    {kind : TokenKind} (hkind : ∀ l, (leaf l).words[0]?.bind TokenKind.ofWord? = some kind)
    (text : String) (call : Nat) :
    Roll.Fit (page.add ⟨call, level.here, kind⟩ :: pages)
      (level.putLeaf leaf text :: levels) := by
  show Roll.Fit (Page.add ⟨page.entries, page.standing⟩ _ :: pages) _
  have hwords : (level.putLeaf leaf text).words = level.words ++
      (leaf ⟨level.poolHere, text.utf8ByteSize⟩).words.toArray := Array.ext' (by simp [Level.putLeaf])
  rw [← List.append_nil page.standing]
  refine h.grow rfl rfl hwords rfl rfl (fun i hi => ?_) (List.pairwise_singleton _ _)
  cases List.mem_singleton.1 hi
  refine ⟨Nat.le_refl _, ?_⟩
  rw [Nat.sub_self, List.getElem?_toArray]
  exact hkind _

/-- **A level is closed** and has become an entry of the level around it, which has taken over its
words. -/
theorem absorb {above : Page} {parent : Level}
    (h : Roll.Fit (page :: above :: pages) (level :: parent :: levels)) {head tail : Array Nat}
    {pool : String} {entry : Entry} {issue : Issue} (hhead : head.size = level.scope.head.size)
    (hrecord : entry.record = issue.record)
    (hplaced : issue.At parent.here (head ++ level.words ++ tail))
    (hnew : issue.record < level.inner ∨ level.here ≤ issue.record) :
    Roll.Fit (Page.add ⟨above.entries, above.standing ++ page.standing⟩ issue :: pages)
      (parent.absorb (head ++ level.words ++ tail) pool entry :: levels) := by
  cases h with
  | cons hpage hstart _ hbelow =>
    refine hbelow.grow rfl rfl rfl rfl hrecord (fun i hi => ?_) ?_
    · rcases List.mem_append.1 hi with hi | hi
      · refine Issue.At.append (Issue.At.prepend ?_) tail
        rw [hhead]
        have hparent : level.start = parent.here := hstart
        rw [← hparent]
        exact hpage.placed i hi
      · cases List.mem_singleton.1 hi
        exact hplaced
    · rw [List.map_append, List.map_singleton]
      refine List.nodup_append.2 ⟨hpage.nodup, List.pairwise_singleton _ _, ?_⟩
      intro record hrecord' record' hmem heq
      cases List.mem_singleton.1 hmem
      obtain ⟨i, hi, rfl⟩ := List.mem_map.1 hrecord'
      have hle := (hpage.placed i hi).le
      have hlt : i.record < level.here := (hpage.placed i hi).lt
      omega

/-! ### Levels that are opened -/

theorem enter (h : Roll.Fit (page :: pages) (level :: levels)) (scope : Scope) (count : Nat) :
    Roll.Fit (⟨[], []⟩ ::
        ⟨page.entries.take (page.entries.length - count), page.standing⟩ :: pages)
      (⟨scope, (level.split count).1.here, (level.split count).1.poolHere, #[], "", #[]⟩ ::
        (level.split count).1 :: levels) := by
  have hmem := h.mem_standing
  cases h with
  | cons hpage hbase _ hbelow =>
    have hkept : (Page.mk (page.entries.take (page.entries.length - count)) page.standing).Fits
        (level.split count).1 := by
      refine ⟨?_, hpage.placed, hpage.nodup⟩
      rw [(level.toList_split count).1, hpage.length_eq, List.map_take, List.map_take,
        hpage.entries]
    refine .cons ⟨rfl, ?_, List.nodup_nil⟩ rfl ?_
      (.cons hkept hbase (fun i hi => hmem i (List.mem_of_mem_take hi)) hbelow)
    · intro i hi
      cases hi
    · intro i hi
      cases hi

/-- The innermost level is given entries that stand. -/
theorem give (h : Roll.Fit (page :: pages) (level :: levels)) {entries : Array Entry}
    {issues : List Issue} (hentries : entries.toList.map Entry.record = issues.map Issue.record)
    (hissues : ∀ issue ∈ issues, issue ∈ (page :: pages).flatMap Page.standing) :
    Roll.Fit (⟨page.entries ++ issues, page.standing⟩ :: pages)
      ({ level with entries := level.entries ++ entries } :: levels) := by
  have hmem := h.mem_standing
  cases h with
  | cons hpage hbase _ hbelow =>
    refine .cons ⟨?_, hpage.placed, hpage.nodup⟩ hbase (fun i hi => ?_) hbelow
    · rw [Array.toList_append, List.map_append, hpage.entries, hentries, List.map_append]
    · exact (List.mem_append.1 hi).elim (hmem i) (hissues i)

end Roll.Fit

end HtmlTape
