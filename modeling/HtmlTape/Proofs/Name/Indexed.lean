import HtmlTape.Name.Indexed
import HtmlTape.Proofs.Name.Codes

/-!
# The map of a name table

The map of an indexed table has exactly the names of the row, with their places
(`IndexedTable.Indexes`).  Every request keeps this, so that over every course of requests an
indexed table answers as a name table does that searches its row (`IndexedTable.searches`).
-/

namespace HtmlTape

theorem NameTable.code?_push {t : NameTable} {name : String} (hnew : t.code? name = none)
    (other : String) :
    NameTable.code? { t with names := t.names.push name } other =
      if other = name then some (t.base + t.size) else t.code? other := by
  rw [code?_eq, Array.toList_push, List.findIdx?_append, code?_eq]
  by_cases hother : other = name
  · subst hother
    rw [code?_eq, Option.map_eq_none_iff] at hnew
    rw [hnew, if_pos rfl]
    simp [size]
  · rw [if_neg hother]
    cases t.names.toList.findIdx? (· == other) with
    | some i => rfl
    | none => simp [Ne.symm hother]

namespace IndexedTable

open NameTable (Log)

variable {t t' : IndexedTable} {name : String} {code : Nat}

def table (t : IndexedTable) : NameTable := ⟨t.base, t.names⟩

/-- The map has the codes that a search of the row finds. -/
def Indexes (t : IndexedTable) : Prop := ∀ name, t.code? name = t.table.code? name

theorem indexes_empty (base : Nat) : (empty base).Indexes := fun name => by
  rw [NameTable.code?_eq]
  rfl

theorem indexes_clear (t : IndexedTable) : t.clear.Indexes := indexes_empty t.base

/-- **Interning answers alike** with the map and without it, and with the same new table. -/
theorem Indexes.intern_eq (h : t.Indexes) (name : String) :
    t.table.intern name = (t.intern name).map fun result => (result.1, result.2.table) := by
  rw [IndexedTable.intern, NameTable.intern, ← h name]
  cases t.code? name with
  | some code => rfl
  | none =>
    by_cases hlegal : !isLegalName name
    · simp only [if_pos hlegal]
      rfl
    · have hsize : t.table.size = t.size := rfl
      have hbase : t.table.base = t.base := rfl
      simp only [if_neg hlegal, hsize, hbase]
      by_cases hfull : NameTable.lastCode < t.base + t.size
      · rw [if_pos hfull]
        split <;> rfl
      · have hcount : ¬ NameTable.lastCode < t.size := by omega
        rw [if_neg hfull, if_neg hcount, if_neg hfull]
        rfl

theorem intern_cases (h : t.intern name = .ok (code, t')) :
    t' = t ∨ t.code? name = none ∧ t' = { t with
      names := t.names.push name
      codes := (name, t.base + t.size) :: t.codes } := by
  rw [IndexedTable.intern] at h
  split at h
  · cases h
    exact .inl rfl
  · split at h
    · cases h
    · split at h
      · cases h
      · split at h
        · cases h
        · cases h
          exact .inr ⟨by assumption, rfl⟩

/-- **A name that is added is added to the map.** -/
theorem Indexes.intern (h : t.Indexes) (hi : t.intern name = .ok (code, t')) : t'.Indexes := by
  obtain rfl | ⟨hnew, rfl⟩ := intern_cases hi
  · exact h
  · intro other
    refine Eq.trans ?_ (NameTable.code?_push ((h name).symm.trans hnew) other).symm
    rw [code?, List.lookup_cons]
    by_cases hother : other = name
    · rw [if_pos hother, hother, beq_self_eq_true]
      rfl
    · rw [if_neg hother, beq_false_of_ne hother]
      exact h other

def ask (t : IndexedTable) : NameTable.Request → IndexedTable
  | .intern name =>
    match t.intern name with
    | .ok (_, t) => t
    | .error _ => t
  | .clear => t.clear

def askAll (t : IndexedTable) (requests : List NameTable.Request) : IndexedTable :=
  requests.foldl ask t

theorem Indexes.ask (h : t.Indexes) {log : Log} (hlog : t.table = log.table)
    (request : NameTable.Request) :
    (t.ask request).Indexes ∧ (t.ask request).table = (log.ask request).table := by
  cases request with
  | clear =>
    refine ⟨t.indexes_clear, ?_⟩
    show NameTable.clear t.table = log.table.clear
    rw [hlog]
  | intern name =>
    have htable := h.intern_eq name
    rw [hlog] at htable
    rw [IndexedTable.ask, Log.ask, htable]
    cases hi : t.intern name with
    | error e => exact ⟨h, hlog⟩
    | ok result => exact ⟨h.intern hi, rfl⟩

theorem Indexes.askAll (requests : List NameTable.Request) :
    ∀ {t : IndexedTable} {log : Log}, t.Indexes → t.table = log.table →
      (t.askAll requests).Indexes ∧ (t.askAll requests).table = (log.askAll requests).table := by
  induction requests with
  | nil => exact fun h hlog => ⟨h, hlog⟩
  | cons request requests ih =>
    intro t log h hlog
    obtain ⟨hindexes, htable⟩ := h.ask hlog request
    exact ih hindexes htable

/-- **The map stands for a search**, over every course of requests: names are looked up, interned
and refused as in the table that has accepted the same names. -/
theorem searches (base : Nat) (requests : List NameTable.Request) :
    ∃ log, log = (Log.start base).askAll requests ∧
      ((empty base).askAll requests).table = log.table ∧
      ∀ name, ((empty base).askAll requests).code? name = log.table.code? name ∧
        log.table.intern name = (((empty base).askAll requests).intern name).map fun result =>
          (result.1, result.2.table) := by
  have hstart : (empty base).table = (Log.start base).table := rfl
  obtain ⟨hindexes, htable⟩ := (indexes_empty base).askAll requests hstart
  refine ⟨_, rfl, htable, fun name => ?_⟩
  rw [← htable]
  exact ⟨hindexes name, hindexes.intern_eq name⟩

end IndexedTable

end HtmlTape
