import HtmlTape.Proofs.Recorder.Reads

/-!
# Levels laid flat

`Recorder.flat` lays the levels of a recorder into one row of words, one pool and one table of
entries.  From there the flat recorder comes to the same outcome as the recorder does, unless an
offset or a length is no word any more (`Tracks`).  Here this is shown of the calls that record a
leaf or open a level.

The table of entries is where the two differ most.  An element that claims entries takes them over
where they are in the table, and records its attributes behind them; the rotation that follows puts
the attributes first (`Recorder.rotate_flatWith`).
-/

namespace HtmlTape

/-! ### Checked sizes -/

/-- A result for which there must be words. -/
def checked {α : Type} (fits : Prop) [Decidable fits] (a : α) : Except Fault α :=
  if fits then .ok a else .error .tooLarge

section

variable {α β : Type} {y : Except Fault α} {g : α → β} {fits : Prop} [Decidable fits]

theorem checked_of {a : α} (h : fits) : checked fits a = .ok a := if_pos h

theorem checked_of_not {a : α} (h : ¬ fits) : checked fits a = .error .tooLarge := if_neg h

theorem bind_checked_ok_iff :
    (∃ b, (y >>= fun a => checked fits (g a)) = .ok b) ↔ (∃ a, y = .ok a) ∧ fits := by
  constructor
  · rintro ⟨b, hb⟩
    obtain ⟨a, ha, hb⟩ := of_bind_eq_ok hb
    refine ⟨⟨a, ha⟩, ?_⟩
    by_contra hlarge
    rw [checked_of_not hlarge] at hb
    cases hb
  · rintro ⟨⟨a, rfl⟩, hfits⟩
    exact ⟨g a, checked_of hfits⟩

theorem bind_checked_tooLarge_iff (hy : y ≠ .error .tooLarge) :
    (y >>= fun a => checked fits (g a)) = .error .tooLarge ↔ (∃ a, y = .ok a) ∧ ¬ fits := by
  constructor
  · intro h
    cases y with
    | error fault =>
      cases h
      exact absurd rfl hy
    | ok a =>
      refine ⟨⟨a, rfl⟩, fun hfits => ?_⟩
      have hok : checked fits (g a) = .error .tooLarge := h
      rw [checked_of hfits] at hok
      cases hok
  · rintro ⟨⟨a, rfl⟩, hlarge⟩
    exact checked_of_not hlarge

end

/-- The first outcome is the second one, told by `f`, unless the document is too large. -/
def Tracks {α β : Type} (f : α → β) (x : Except Fault β) (y : Except Fault α) : Prop :=
  x = .error .tooLarge ∨ x = y.map f

namespace Tracks

variable {α β γ δ : Type} {f : α → β} {g : γ → δ}

theorem ok {a : α} {b : β} (h : b = f a) : Tracks f (.ok b) (.ok a) := .inr (congrArg _ h)

theorem index {n : Nat} {k : Nat → Except Fault β} {y : Except Fault α} (h : Tracks f (k n) y) :
    Tracks f (HtmlTape.index n >>= k) y := by
  rcases Nat.lt_or_ge lastWord n with hn | hn
  · rw [index_of_lt hn]
    exact .inl rfl
  · rw [index_of_le hn]
    exact h

theorem of_eq_ok {x : Except Fault β} {y : Except Fault α} {b : β} (h : Tracks f x y)
    (hx : x = .ok b) : ∃ a, y = .ok a ∧ b = f a := by
  rcases h with h | h
  · rw [hx] at h
    cases h
  · obtain ⟨a, ha, hb⟩ := of_map_eq_ok (h.symm.trans hx)
    exact ⟨a, ha, hb.symm⟩

theorem checked {fits : Prop} [Decidable fits] {a : α} {b : β} (h : b = f a) :
    Tracks f (HtmlTape.checked fits b) (.ok a) := by
  by_cases hfits : fits
  · rw [checked_of hfits]
    exact .ok h
  · exact .inl (checked_of_not hfits)

theorem bind {x : Except Fault δ} {y : Except Fault γ} {k : δ → Except Fault β}
    {l : γ → Except Fault α} (h : Tracks g x y)
    (hk : ∀ c, y = .ok c → Tracks f (k (g c)) (l c)) : Tracks f (x >>= k) (y >>= l) := by
  rcases h with rfl | rfl
  · exact .inl rfl
  · cases y with
    | error fault => exact .inr rfl
    | ok c => exact hk c rfl

/-- The same computation comes first on both sides. -/
theorem after {z : Except Fault γ} {k : γ → Except Fault β} {l : γ → Except Fault α}
    (hk : ∀ c, z = .ok c → Tracks f (k c) (l c)) : Tracks f (z >>= k) (z >>= l) := by
  cases z with
  | error fault => exact .inr rfl
  | ok c => exact hk c rfl

/-- Sizes are checked after the computation itself. -/
theorem before {y : Except Fault α} {k : α → Except Fault β}
    (hk : ∀ a, y = .ok a → Tracks f (k a) (.ok a)) : Tracks f (y >>= k) y := by
  cases y with
  | error fault => exact .inr rfl
  | ok a => exact hk a rfl

theorem map {x : Except Fault δ} {y : Except Fault γ} {k : δ → β} {l : γ → α}
    (h : Tracks g x y) (hk : ∀ c, k (g c) = f (l c)) : Tracks f (x.map k) (y.map l) := by
  rcases h with rfl | rfl
  · exact .inl rfl
  · cases y with
    | error fault => exact .inr rfl
    | ok c => exact .inr (congrArg Except.ok (hk c))

end Tracks

/-! ### Laying flat -/

def Level.flat (level : Level) (outer : List Level) : FlatLevel :=
  ⟨level.scope, level.start, (entriesAll outer).length, level.poolStart⟩

def Level.flatAll : List Level → List FlatLevel
  | [] => []
  | level :: outer => level.flat outer :: flatAll outer

namespace Recorder

/-- The recorder with its levels laid flat, and with some entries at the front of those of the
innermost level. -/
def flatWith (r : Recorder) (claimed : List Entry) : FlatRecorder where
  words := r.words
  pool := r.pool
  names := r.names
  deferred :=
    ((Level.entriesAll r.outer ++ (claimed ++ r.current.entries.toList)).map Entry.record).toArray
  current := r.current.flat r.outer
  outer := Level.flatAll r.outer
  counters := r.counters
  ids := r.ids

def flat (r : Recorder) : FlatRecorder := r.flatWith []

/-- What the places where a level begins say of the words and the literal text. -/
structure Flattens (r : Recorder) : Prop where
  here : r.words.size = r.current.here
  poolHere : r.pool.utf8ByteSize = r.current.poolHere
  start : (Level.wordsAll r.outer).size = r.current.start
  poolStart : (Level.poolAll r.outer).utf8ByteSize = r.current.poolStart
  root : r.current.scope = .root ↔ r.outer = []
  reads : ∀ entry ∈ r.current.entries.toList, ∀ after, entry.ReadsIn (r.words ++ after)

variable {r r' : Recorder} {m : Draft Quote}

theorem Mirrors.flattens (h : r.Mirrors m) : r.Flattens := by
  obtain ⟨_, k, hk⟩ := h
  have hreads := hk.readAt
  have hends := hk.ends
  cases hk with
  | cons below _ root holds =>
    obtain ⟨hstart, hpool⟩ := below.ends
    refine ⟨hends.1.trans holds.here_eq.symm, ?_, hstart.trans holds.start.symm, ?_, root, ?_⟩
    · rw [holds.poolHere_eq, ← hends.2]
      rfl
    · rw [hpool, holds.poolStart]
    · have hall : List.Forall₂ (fun entry item => (∀ after, entry.ReadsIn (r.words ++ after)) ∧
          Entry.StandsFor entry _ item) r.current.entries.toList m.current.items :=
        holds.entries.imp fun entry item hs => ⟨fun after => hs.readsIn (hreads after), hs⟩
      exact ((List.forall₂_and_left _ _).1 hall).1

/-! ### Leaves -/

theorem flatWith_absorb (r : Recorder) (claimed : List Entry) (words : Array Nat) (pool : String)
    (entry : Entry) :
    ({ r with current := r.current.absorb words pool entry } : Recorder).flatWith claimed =
      { r.flatWith claimed with
        words := r.words ++ words
        pool := r.pool ++ pool
        deferred := (r.flatWith claimed).deferred.push entry.record } := by
  simp [flatWith, Level.flat, Level.absorb, Recorder.words, Recorder.pool, levels,
    Level.wordsAll_cons, Level.poolAll_cons, String.append_assoc]

/-- A leaf is recorded on the flat recorder as it is on the innermost level. -/
theorem Flattens.register_putLeaf (h : r.Flattens) (claimed : List Entry)
    (leaf : Literal → Leaf) (text : String) :
    FlatRecorder.register (FlatRecorder.push { r.flatWith claimed with pool := r.pool ++ text }
        (leaf ⟨r.pool.utf8ByteSize, text.utf8ByteSize⟩).words.toArray) r.words.size =
      Prod.map id (flatWith · claimed) (r.putLeaf leaf text) := by
  rw [Recorder.putLeaf, Level.putLeaf_eq_absorb, Prod.map_apply, flatWith_absorb, ← h.poolHere,
    ← h.here, Block.wordsAll, Block.wordsAll, List.append_nil]
  rfl

theorem Flattens.putLeaf (h : r.Flattens) (claimed : List Entry) (leaf : Literal → Leaf)
    (text : String) :
    Tracks (Prod.map id (flatWith · claimed)) ((r.flatWith claimed).putLeaf leaf text)
      (.ok (r.putLeaf leaf text)) := by
  rw [FlatRecorder.putLeaf, FlatRecorder.here, FlatRecorder.literal]
  simp only [bind_assoc, pure_bind]
  exact .index (.index (.index (.index (.ok (h.register_putLeaf claimed leaf text)))))

theorem Flattens.putMark (h : r.Flattens) (claimed : List Entry) (leaf : Leaf) :
    Tracks (Prod.map id (flatWith · claimed)) ((r.flatWith claimed).putMark leaf)
      (.ok (r.putLeaf (fun _ => leaf) "")) := by
  refine .index (.ok ?_)
  have hregister := h.register_putLeaf claimed (fun _ => leaf) ""
  rwa [String.append_empty] at hregister

theorem Flattens.congr (h : r.Flattens) (hl : r'.levels = r.levels) : r'.Flattens := by
  obtain ⟨hc, ho⟩ := List.cons.inj hl
  have hwords : r'.words = r.words := congrArg Level.wordsAll hl
  have hpool : r'.pool = r.pool := congrArg Level.poolAll hl
  exact ⟨hwords ▸ hc ▸ h.here, hpool ▸ hc ▸ h.poolHere, ho ▸ hc ▸ h.start, ho ▸ hc ▸ h.poolStart,
    hc ▸ ho ▸ h.root, hc ▸ hwords ▸ h.reads⟩

theorem Flattens.valuedAttribute (h : r.Flattens) (claimed : List Entry) (name : AttributeName)
    (value : String) :
    Tracks (Prod.map id (flatWith · claimed)) ((r.flatWith claimed).valuedAttribute name value)
      (r.valuedAttribute name value) := by
  have hcount : r.countAttribute.Flattens := h.congr rfl
  exact .after fun _ _ => hcount.putLeaf claimed (.valued name) value

theorem Flattens.booleanAttribute (h : r.Flattens) (claimed : List Entry) (name : AttributeName) :
    Tracks (Prod.map id (flatWith · claimed)) ((r.flatWith claimed).booleanAttribute name)
      (r.booleanAttribute name) := by
  have hcount : r.countAttribute.Flattens := h.congr rfl
  exact .after fun _ _ => hcount.putMark claimed (.boolean name)

/-! ### The table of entries -/

theorem flatAll_length (levels : List Level) :
    (Level.flatAll levels).length = levels.length := by
  induction levels with
  | nil => rfl
  | cons level outer ih => rw [Level.flatAll, List.length_cons, ih, List.length_cons]

theorem size_deferred (r : Recorder) : r.flat.deferred.size =
    (Level.entriesAll r.outer).length + r.current.entries.size := by
  simp [flat, flatWith]

theorem available_eq (r : Recorder) : r.flat.available = r.current.entries.size := by
  rw [FlatRecorder.available, size_deferred]
  exact Nat.add_sub_cancel_left _ _

theorem extract_append_take (as bs : List Nat) :
    (as ++ bs).toArray.extract 0 as.length = as.toArray := by
  simp

theorem extract_append_drop (as bs : List Nat) (count : Nat) :
    (as ++ bs).toArray.extract (as.length + count) (as ++ bs).toArray.size =
      (bs.drop count).toArray := by
  rw [List.extract_toArray, List.extract_eq_take_drop, List.drop_append,
    List.drop_of_length_le (Nat.le_add_right _ _), List.nil_append, Nat.add_sub_cancel_left,
    List.take_of_length_le]
  rw [List.length_drop, List.size_toArray, List.length_append]
  omega

theorem extract_deferred (r : Recorder) (count : Nat) :
    r.flat.deferred.extract ((Level.entriesAll r.outer).length + count) r.flat.deferred.size =
      ((r.current.entries.toList.drop count).map Entry.record).toArray := by
  have hdrop := extract_append_drop ((Level.entriesAll r.outer).map Entry.record)
    (r.current.entries.toList.map Entry.record) count
  rwa [List.length_map, ← List.map_append, ← List.map_drop] at hdrop

/-- The last entries of the table are those that the innermost level gives away. -/
theorem last_deferred (r : Recorder) {count : Nat} (hcount : count ≤ r.current.entries.size) :
    r.flat.deferred.extract (r.flat.deferred.size - count) r.flat.deferred.size =
      ((r.current.split count).2.toList.map Entry.record).toArray := by
  rw [(r.current.toList_split count).2, Array.length_toList, ← r.extract_deferred, size_deferred,
    Nat.add_sub_assoc hcount]

theorem findIdx?_map_zip (records : List Nat) (entries : List Entry) :
    ((records.zip (entries.map Entry.record)).findIdx? fun (record, entry) => record != entry) =
      Level.misplaced? records entries := by
  rw [Level.misplaced?, ← List.map_id records, List.zip_map, List.findIdx?_map, List.map_id]
  rfl

/-- **Arguments name entries of the table** where they name those of the innermost level. -/
theorem flat_claim (r : Recorder) (args : List Token) : r.flat.claim args =
    (r.current.claim args).map fun _ => r.flat.deferred.size - Draft.claimed args := by
  rw [FlatRecorder.claim, Level.claim, available_eq, Draft.claimed]
  by_cases hlt : r.current.entries.size < (args.filterMap Token.record?).length
  · simp only [if_pos hlt]
    rfl
  · simp only [if_neg hlt]
    rw [last_deferred r (Nat.le_of_not_lt hlt), findIdx?_map_zip]
    cases Level.misplaced? _ _ <;> rfl

/-! ### Opening levels -/

theorem entriesAll_split (r : Recorder) (count : Nat) :
    Level.entriesAll ((r.current.split count).1 :: r.outer) ++
        (r.current.split count).2.toList =
      Level.entriesAll r.outer ++ r.current.entries.toList := by
  rw [Level.entriesAll_cons, List.append_assoc, (r.current.toList_split count).1,
    (r.current.toList_split count).2, List.take_append_drop]

theorem size_kept (r : Recorder) {count : Nat} (hcount : count ≤ r.current.entries.size) :
    r.flat.deferred.size - count =
      (Level.entriesAll ((r.current.split count).1 :: r.outer)).length := by
  have hlength := congrArg List.length (r.entriesAll_split count)
  have hgiven : (r.current.split count).2.toList.length = count := by
    rw [(r.current.toList_split count).2, List.length_drop, Array.length_toList]
    omega
  have hown : r.current.entries.toList.length = r.current.entries.size := Array.length_toList
  rw [List.length_append, hgiven, List.length_append, hown] at hlength
  rw [size_deferred]
  omega

/-- A level is opened on the flat recorder as it is inside of the innermost level, which gives
its last entries away. -/
theorem Flattens.enter (h : r.Flattens) (scope : Scope) {count : Nat}
    (hcount : count ≤ r.current.entries.size) :
    Tracks (flatWith · (r.current.split count).2.toList)
      (r.flat.enter scope (r.flat.deferred.size - count))
      (do FlatRecorder.checkName r.names scope
          return r.enter scope (r.current.split count).1 #[]) := by
  have hsplit := r.entriesAll_split count
  refine .index (.after fun _ _ => .ok (FlatRecorder.ext ?_ ?_ rfl ?_ ?_ rfl ?_ rfl))
  · show r.words ++ scope.head = Level.wordsAll _
    have hwords : Level.wordsAll ((r.current.split count).1 :: r.outer) = r.words :=
      (Level.wordsAll_cons _ _).trans (Level.wordsAll_cons r.current r.outer).symm
    rw [levels, Recorder.enter, Level.wordsAll_cons, hwords, Array.append_empty]
  · show r.pool = Level.poolAll _
    have hpool : Level.poolAll ((r.current.split count).1 :: r.outer) = r.pool :=
      (Level.poolAll_cons _ _).trans (Level.poolAll_cons r.current r.outer).symm
    rw [levels, Recorder.enter, Level.poolAll_cons, hpool, String.append_empty]
  · show r.flat.deferred = (List.map Entry.record (_ ++ (_ ++ []))).toArray
    rw [List.append_nil, Recorder.enter, hsplit]
    rfl
  · rw [r.size_kept hcount]
    show FlatLevel.mk scope r.words.size _ r.pool.utf8ByteSize = FlatLevel.mk scope _ _ _
    rw [h.here, h.poolHere]
    rfl
  · show Counters.mk _ _ _ _ _ (max _ ((Level.flatAll r.outer).length + 1)) = _
    rw [flatAll_length]
    rfl

theorem flatWith_entries (r : Recorder) (claimed : List Entry) (entries : Array Entry) :
    ({ r with current := { r.current with entries } } : Recorder).flatWith claimed =
      { r.flat with deferred := ((Level.entriesAll r.outer ++
        (claimed ++ entries.toList)).map Entry.record).toArray } := by
  refine FlatRecorder.ext ?_ ?_ rfl rfl rfl rfl rfl rfl
  · exact (Level.wordsAll_cons _ _).trans (Level.wordsAll_cons r.current r.outer).symm
  · exact (Level.poolAll_cons _ _).trans (Level.poolAll_cons r.current r.outer).symm

/-- Entries that a level takes over at its front are entries like others. -/
theorem flatWith_toList (r : Recorder) (claimed : Array Entry) :
    r.flatWith claimed.toList =
      ({ r with current := { r.current with entries := claimed ++ r.current.entries } } :
        Recorder).flat := by
  have hentries := flatWith_entries r [] (claimed ++ r.current.entries)
  rw [Array.toList_append] at hentries
  exact (flatWith_entries r claimed.toList r.current.entries).trans hentries.symm

theorem Flattens.enter_flat (h : r.Flattens) (scope : Scope) {count : Nat}
    (hcount : count ≤ r.current.entries.size) :
    Tracks flat (r.flat.enter scope (r.flat.deferred.size - count))
      (do FlatRecorder.checkName r.names scope
          return r.enter scope (r.current.split count).1 (r.current.split count).2) := by
  have henter := h.enter scope hcount
  rw [Tracks] at henter ⊢
  refine henter.imp_right fun he => he.trans ?_
  cases FlatRecorder.checkName r.names scope with
  | error fault => rfl
  | ok => exact congrArg Except.ok (flatWith_toList _ _)

theorem rotateRight_append (as bs : List Nat) :
    (as ++ bs).rotateRight bs.length = bs ++ as := by
  unfold List.rotateRight
  by_cases hbs : bs.length = (as ++ bs).length
  · have has : as = [] := by
      rw [List.length_append] at hbs
      exact List.length_eq_zero_iff.1 (by omega)
    subst has
    simp
  · have hlt : bs.length < (as ++ bs).length := by
      rw [List.length_append] at hbs ⊢
      omega
    simp only [Nat.mod_eq_of_lt hlt]
    split
    · have hbs : bs = [] := List.length_eq_zero_iff.1 (by omega)
      rw [hbs, List.append_nil, List.nil_append]
    · have hlen : (as ++ bs).length - bs.length = as.length := by
        rw [List.length_append, Nat.add_sub_cancel]
      rw [hlen, List.drop_left, List.take_left]

theorem deferred_rotate {f : FlatRecorder} {as bs cs : List Nat}
    (h : f.deferred = (as ++ (bs ++ cs)).toArray) :
    (f.rotate as.length cs.length).deferred = (as ++ (cs ++ bs)).toArray := by
  have hrest := extract_append_drop as (bs ++ cs) 0
  rw [Nat.add_zero, List.drop_zero] at hrest
  simp only [FlatRecorder.rotate]
  rw [h, extract_append_take, hrest]
  refine (congrArg (fun row : List Nat => as.toArray ++ row) (rotateRight_append bs cs)).trans ?_
  simp

/-- **Rotating the table** puts what a level has recorded before what it took over. -/
theorem rotate_flatWith (r : Recorder) (claimed : Array Entry) :
    (r.flatWith claimed.toList).rotate (Level.entriesAll r.outer).length
        r.current.entries.size =
      ({ r with current := { r.current with entries := r.current.entries ++ claimed } } :
        Recorder).flat := by
  have hdeferred : (r.flatWith claimed.toList).deferred =
      ((Level.entriesAll r.outer).map Entry.record ++ (claimed.toList.map Entry.record ++
        r.current.entries.toList.map Entry.record)).toArray := by
    rw [flatWith, List.map_append, List.map_append]
  have hrotate := deferred_rotate hdeferred
  rw [List.length_map, List.length_map] at hrotate
  have hentries := flatWith_entries r [] (r.current.entries ++ claimed)
  rw [flat, hentries]
  refine FlatRecorder.ext rfl rfl rfl (hrotate.trans ?_) rfl rfl rfl rfl
  simp

theorem Mirrors.preparedAttributes_flat (claimed : List Entry)
    (prepared : List PreparedAttribute) :
    ∀ {r : Recorder} {m : Draft Quote}, r.Mirrors m →
      Tracks (flatWith · claimed) ((r.flatWith claimed).preparedAttributes prepared)
        (r.preparedAttributes prepared) := by
  induction prepared with
  | nil => exact fun _ => .ok rfl
  | cons p prepared ih =>
    intro r m h
    rw [FlatRecorder.preparedAttributes, Recorder.preparedAttributes, List.foldlM_cons,
      List.foldlM_cons]
    have hfirst : Tracks (flatWith · claimed)
        (((r.flatWith claimed).valuedAttribute p.name p.value).map (·.2))
        ((r.preparedAttribute p).map (·.2)) :=
      (h.flattens.valuedAttribute claimed p.name p.value).map fun _ => rfl
    refine hfirst.bind fun s hs => ?_
    obtain ⟨⟨o, s'⟩, hp, rfl⟩ := of_map_eq_ok hs
    exact ih (h.valuedAttribute hp)

/-! ### The calls that open a level -/

theorem checkName_element (names : Names) (name : ElementName) {α : Type}
    (k : Unit → Except Fault α) : FlatRecorder.checkName names (.element name) >>= k =
      names.elementText name >>= fun _ => k () := by
  rw [FlatRecorder.checkName]
  cases names.elementText name <;> rfl

theorem Flattens.enterElement (h : r.Flattens) (name : ElementName) {count : Nat}
    (hcount : count ≤ r.current.entries.size) :
    Tracks flat (r.flat.enter (.element name) (r.flat.deferred.size - count))
      (r.enterElement name (r.current.split count).1 (r.current.split count).2) := by
  have henter := h.enter_flat (.element name) hcount
  rwa [checkName_element] at henter

theorem Flattens.openElement (h : r.Flattens) (name : ElementName) :
    Tracks flat (r.flat.openElement name) (r.openElement name) := by
  have henter := h.enterElement name (Nat.zero_le _)
  rwa [Level.split_zero] at henter

theorem Flattens.beginFragment (h : r.Flattens) :
    Tracks flat r.flat.beginFragment (.ok r.beginFragment) := by
  have henter := h.enter_flat .fragment (Nat.zero_le _)
  rwa [Level.split_zero] at henter

theorem Flattens.adopt (h : r.Flattens) (name : ElementName) (count : Nat) :
    Tracks flat (r.flat.adopt name count) (r.adopt name count) := by
  rw [FlatRecorder.adopt, Recorder.adopt, Level.adopt, available_eq]
  by_cases hlt : r.current.entries.size < count
  · rw [if_pos hlt, if_pos hlt]
    exact .inr rfl
  · rw [if_neg hlt, if_neg hlt]
    exact h.enterElement name (Nat.le_of_not_lt hlt)

theorem Mirrors.openElementWith_flat (h : r.Mirrors m) (name : ElementName)
    (prepared : List PreparedAttribute) (args : List Token) :
    Tracks flat (r.flat.openElementWith name prepared args)
      (r.openElementWith name prepared args) := by
  rw [FlatRecorder.openElementWith, Recorder.openElementWith, flat_claim]
  cases hclaim : r.current.claim args with
  | error fault => exact .inr rfl
  | ok result =>
    obtain ⟨rest, claimed⟩ := result
    obtain ⟨hcount, hsplit⟩ := claim_eq_ok hclaim
    cases hsplit
    show Tracks flat (r.flat.enter _ _ >>= _) (r.enterElement name _ #[] >>= _)
    have henter := h.flattens.enter (.element name) hcount
    rw [checkName_element] at henter
    refine henter.bind fun inner hinner => ?_
    obtain ⟨_, hname, hinner⟩ := of_bind_eq_ok hinner
    cases hinner
    have hroot : Scope.element name ≠ .root := by simp
    obtain ⟨m', hm, _⟩ := (h.keep (Draft.claimed args)).enterEmpty hroot fun _ he => by
      cases he
      exact Names.isSome_of_elementText hname
    refine (hm.preparedAttributes_flat _ prepared).bind fun s hs => ?_
    obtain ⟨_, rfl⟩ := preparedAttributes_eq_ok prepared hs
    -- the attributes lie behind what was claimed, and the rotation puts them before it
    refine .ok (Eq.trans ?_ (rotate_flatWith _ (r.current.split (Draft.claimed args)).2))
    show FlatRecorder.rotate _ (r.flat.deferred.size - Draft.claimed args) _ =
      FlatRecorder.rotate _ (Level.entriesAll (_ :: r.outer)).length
        (Level.putAttributes _ _).entries.size
    rw [r.size_kept hcount, Level.size_putAttributes]
    exact congrArg _ (Nat.zero_add _).symm

end Recorder

end HtmlTape
