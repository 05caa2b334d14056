import HtmlTape.Proofs.Name.Sound
import Mathlib.Tactic.ByContra

/-!
# Codes over a course of requests

A log keeps what a table of names has accepted since it was last cleared, with the codes it has
answered.  Over every course of requests the names are numbered from the base of the table on, in
the order in which they first came up, and a code that was given is resolved to its name from then
on (`NameTable.Log.Dense`).

The names of a document are the standard ones and two tables behind them.  A name that was accepted
is read back from its code, and looking a name up finds the standard names and the accepted ones,
with the codes they would get (`Names.Log.Faithful`).
-/

namespace HtmlTape

/-! ### Finding and reading names -/

/-- In a row without duplicates a member is found at the one place where it stands. -/
theorem findIdx?_beq_eq_some_iff {as : List String} (h : as.Nodup) {a : String} {i : Nat} :
    as.findIdx? (· == a) = some i ↔ as[i]? = some a := by
  rw [List.findIdx?_eq_some_iff_getElem]
  constructor
  · rintro ⟨hi, heq, -⟩
    rw [List.getElem?_eq_getElem hi, eq_of_beq heq]
  · intro hget
    obtain ⟨hi, heq⟩ := List.getElem?_eq_some_iff.1 hget
    refine ⟨hi, by simp [heq], fun j hj => ?_⟩
    intro hbeq
    have hsame : as[j]? = as[i]? := by
      rw [hget, List.getElem?_eq_getElem (Nat.lt_trans hj hi), eq_of_beq hbeq]
    have := (List.getElem?_inj (Nat.lt_trans hj hi) h).1 hsame
    omega

theorem isSome_findIdx?_beq_iff {as : List String} {a : String} :
    (as.findIdx? (· == a)).isSome ↔ a ∈ as := by
  simp [List.findIdx?_isSome]

namespace NameTable

variable {t : NameTable} {name : String} {code : Nat}

theorem code?_eq (t : NameTable) (name : String) :
    t.code? name = (t.names.toList.findIdx? (· == name)).map (t.base + ·) := by
  rw [code?, List.findIdx?_toArray]

/-- **The codes of names and the names of codes are inverse to each other.** -/
theorem code?_eq_some_iff (h : t.names.toList.Nodup) :
    t.code? name = some code ↔ t.name? code = some name := by
  rw [code?_eq, Option.map_eq_some_iff, name?]
  constructor
  · rintro ⟨i, hi, rfl⟩
    rw [if_pos (Nat.le_add_right _ _), Nat.add_sub_cancel_left, ← Array.getElem?_toList]
    exact (findIdx?_beq_eq_some_iff h).1 hi
  · intro hname
    by_cases hle : t.base ≤ code
    · rw [if_pos hle, ← Array.getElem?_toList] at hname
      exact ⟨code - t.base, (findIdx?_beq_eq_some_iff h).2 hname, Nat.add_sub_cancel' hle⟩
    · rw [if_neg hle] at hname
      cases hname

/-- An accepted request: the name was known, or it is new and gets the next code. -/
theorem intern_cases {t' : NameTable} (h : t.intern name = .ok (code, t')) :
    (t.code? name = some code ∧ t' = t) ∨
      (t.code? name = none ∧ isLegalName name ∧ t.base + t.size ≤ lastCode ∧
        code = t.base + t.size ∧ t' = { t with names := t.names.push name }) := by
  rw [intern] at h
  split at h
  · cases h
    exact .inl ⟨by assumption, rfl⟩
  · split at h
    · cases h
    · split at h
      · cases h
      · cases h
        rename_i hcode hlegal hroom
        exact .inr ⟨hcode, by simpa using hlegal, Nat.le_of_not_lt hroom, rfl, rfl⟩

theorem code?_eq_none_iff : t.code? name = none ↔ name ∉ t.names.toList := by
  rw [code?_eq, Option.map_eq_none_iff, ← Option.not_isSome_iff_eq_none, isSome_findIdx?_beq_iff]

/-- A request is refused because the name is new and no legal one, or because no code is left. -/
theorem intern_of_notMem (h : name ∉ t.names.toList) :
    t.intern name =
      if ¬ isLegalName name then .error (.invalid name)
      else if lastCode < t.base + t.size then .error .outOfCodes
      else .ok (t.base + t.size, { t with names := t.names.push name }) := by
  rw [intern, code?_eq_none_iff.2 h]
  simp

/-! ### Logs of a table -/

/-- A request to a table of names. -/
inductive Request where
  | intern (name : String)
  | clear

/-- A table of names, and what it has accepted since it was last cleared: every name that got a
code, as often as it did, with the code. -/
structure Log where
  table : NameTable
  accepted : List (String × Nat)

namespace Log

def start (base : Nat) : Log := ⟨empty base, []⟩

/-- The log after a request.  A request that is refused leaves it as it is. -/
def ask (log : Log) : Request → Log
  | .intern name =>
    match log.table.intern name with
    | .ok (code, table) => ⟨table, log.accepted ++ [(name, code)]⟩
    | .error _ => log
  | .clear => ⟨log.table.clear, []⟩

def askAll (log : Log) (requests : List Request) : Log := requests.foldl ask log

/-- The names that were accepted, each once, in the order in which they first came up. -/
def known (log : Log) : List String := (log.accepted.map Prod.fst).eraseDups

/-- The codes of the accepted names are dense from the base on. -/
structure Dense (base : Nat) (log : Log) : Prop where
  /-- A code that was given is resolved to its name. -/
  resolves : ∀ p ∈ log.accepted, log.table.name? p.2 = some p.1
  /-- Equal names have got equal codes, and different names different ones. -/
  code_eq_iff : ∀ p ∈ log.accepted, ∀ q ∈ log.accepted, p.2 = q.2 ↔ p.1 = q.1
  /-- The names are numbered in the order in which they first came up. -/
  numbered : ∀ i, log.table.name? (base + i) = log.known[i]?
  /-- Exactly the codes from the base on are resolved, one for each of the names. -/
  isSome_name?_iff : ∀ code, (log.table.name? code).isSome ↔
    base ≤ code ∧ code < base + log.table.size
  size : log.table.size = log.known.length
  /-- No code wraps around. -/
  le_lastCode : ∀ p ∈ log.accepted, p.2 ≤ lastCode
  /-- A name that is known gets its code again, and the table stays as it is. -/
  again : ∀ name ∈ log.known, ∃ code, (name, code) ∈ log.accepted ∧
    log.table.intern name = .ok (code, log.table)
  /-- A new name gets the next code and is the last of the known ones then. -/
  added : ∀ name ∉ log.known, isLegalName name → base + log.table.size ≤ lastCode →
    ∃ table, log.table.intern name = .ok (base + log.table.size, table) ∧
      (log.ask (.intern name)).known = log.known ++ [name]
  /-- A new name that is no legal one is refused, and nothing changes. -/
  illegal : ∀ name ∉ log.known, ¬ isLegalName name →
    log.table.intern name = .error (.invalid name) ∧ log.ask (.intern name) = log
  /-- When all codes are given a new name is refused, and nothing changes. -/
  full : ∀ name ∉ log.known, isLegalName name → lastCode < base + log.table.size →
    log.table.intern name = .error .outOfCodes ∧ log.ask (.intern name) = log

/-- The table is made of the base and of the accepted names. -/
structure Kept (base : Nat) (log : Log) : Prop where
  table : log.table = ⟨base, log.known.toArray⟩
  resolves : ∀ p ∈ log.accepted, log.table.name? p.2 = some p.1
  room : log.known ≠ [] → base + log.known.length ≤ lastCode + 1

namespace Kept

variable {base : Nat} {log : Log} {name : String}

theorem start (base : Nat) : (start base).Kept base where
  table := rfl
  resolves := nofun
  room := fun h => absurd rfl h

theorem names_eq (h : log.Kept base) : log.table.names.toList = log.known := by
  rw [h.table]

theorem size_eq (h : log.Kept base) : log.table.size = log.known.length := by
  rw [h.table]
  rfl

theorem base_eq (h : log.Kept base) : log.table.base = base := by
  rw [h.table]

theorem nodup (h : log.Kept base) : log.table.names.toList.Nodup := by
  rw [h.names_eq]
  exact nodup_eraseDups _

theorem known_concat (log : Log) (name : String) (code : Nat) (table : NameTable) :
    known ⟨table, log.accepted ++ [(name, code)]⟩ =
      if name ∈ log.known then log.known else log.known ++ [name] := by
  simp only [known, List.map_append, List.map_cons, List.map_nil, eraseDups_concat,
    List.mem_eraseDups]

theorem again (h : log.Kept base) {code : Nat} (hcode : log.table.code? name = some code) :
    Kept base ⟨log.table, log.accepted ++ [(name, code)]⟩ := by
  have hmem : name ∈ log.known := by
    rw [← h.names_eq]
    by_contra hnot
    rw [code?_eq_none_iff.2 hnot] at hcode
    cases hcode
  have hknown : known ⟨log.table, log.accepted ++ [(name, code)]⟩ = log.known := by
    rw [known_concat, if_pos hmem]
  have hname := (code?_eq_some_iff h.nodup).1 hcode
  refine ⟨?_, List.forall_mem_append.2 ⟨h.resolves, List.forall_mem_singleton.2 hname⟩, ?_⟩
  · rw [hknown]
    exact h.table
  · rw [hknown]
    exact h.room

theorem add (h : log.Kept base) {code : Nat} {table : NameTable}
    (hi : log.table.intern name = .ok (code, table)) (hcode : log.table.code? name = none) :
    Kept base ⟨table, log.accepted ++ [(name, code)]⟩ := by
  rcases intern_cases hi with ⟨hsome, _⟩ | ⟨-, -, hroom, rfl, rfl⟩
  · rw [hcode] at hsome
    cases hsome
  have hnot : name ∉ log.known := by
    rw [← h.names_eq]
    exact code?_eq_none_iff.1 hcode
  have hknown : ∀ code table, known ⟨table, log.accepted ++ [(name, code)]⟩ =
      log.known ++ [name] := fun code table => by rw [known_concat, if_neg hnot]
  refine ⟨?_, List.forall_mem_append.2 ⟨fun p hp => name?_intern hi (h.resolves p hp),
    List.forall_mem_singleton.2 ?_⟩, fun _ => ?_⟩
  · rw [hknown, h.table]
    simp
  · simp [name?, size]
  · rw [hknown, List.length_append, List.length_singleton, ← Nat.add_assoc, ← h.size_eq,
      ← h.base_eq]
    exact Nat.succ_le_succ hroom

/-- **A request keeps what the log says of the table.** -/
theorem ask (h : log.Kept base) (request : Request) : (log.ask request).Kept base := by
  cases request with
  | clear =>
    refine ⟨?_, nofun, fun hne => absurd rfl hne⟩
    show log.table.clear = _
    rw [clear, h.base_eq]
    rfl
  | intern name =>
    rw [Log.ask]
    cases hi : log.table.intern name with
    | error e => exact h
    | ok result =>
      obtain ⟨code, table⟩ := result
      rcases intern_cases hi with ⟨hcode, rfl⟩ | ⟨hcode, -⟩
      · exact h.again hcode
      · exact h.add hi hcode

theorem askAll (h : log.Kept base) (requests : List Request) : (log.askAll requests).Kept base := by
  induction requests generalizing log with
  | nil => exact h
  | cons request requests ih => exact ih (h.ask request)

theorem isSome_name?_iff (h : log.Kept base) (code : Nat) :
    (log.table.name? code).isSome ↔ base ≤ code ∧ code < base + log.table.size := by
  rw [name?, h.base_eq]
  by_cases hle : base ≤ code
  · simp only [if_pos hle, isSome_getElem?, size]
    omega
  · simp [hle]

theorem le_lastCode (h : log.Kept base) : ∀ p ∈ log.accepted, p.2 ≤ lastCode := by
  intro p hp
  have hsome : (log.table.name? p.2).isSome := by rw [h.resolves p hp]; rfl
  have hlt := ((h.isSome_name?_iff p.2).1 hsome).2
  have hmem : p.1 ∈ log.known := List.mem_eraseDups.2 (List.mem_map_of_mem hp)
  have hroom := h.room (List.ne_nil_of_mem hmem)
  rw [h.size_eq] at hlt
  omega

/-- **Codes are dense** where the table is made of the accepted names. -/
theorem dense (h : log.Kept base) : log.Dense base where
  resolves := h.resolves
  isSome_name?_iff := h.isSome_name?_iff
  size := h.size_eq
  le_lastCode := h.le_lastCode
  code_eq_iff := by
    intro p hp q hq
    have hpcode := (code?_eq_some_iff h.nodup).2 (h.resolves p hp)
    have hqcode := (code?_eq_some_iff h.nodup).2 (h.resolves q hq)
    constructor
    · intro hcode
      have hname := h.resolves p hp
      rw [hcode, h.resolves q hq] at hname
      exact (Option.some.inj hname).symm
    · intro hname
      rw [hname, hqcode] at hpcode
      exact (Option.some.inj hpcode).symm
  numbered := by
    intro i
    rw [name?, h.base_eq, if_pos (Nat.le_add_right _ _), Nat.add_sub_cancel_left,
      ← Array.getElem?_toList, h.names_eq]
  again := by
    intro name hname
    obtain ⟨⟨name, code⟩, hp, rfl⟩ := List.mem_map.1 (List.mem_eraseDups.1 hname)
    refine ⟨code, hp, ?_⟩
    have hcode : log.table.code? name = some code :=
      (code?_eq_some_iff h.nodup).2 (h.resolves _ hp)
    rw [intern, hcode]
  added := by
    intro name hnot hlegal hroom
    have hroom' : ¬ lastCode < log.table.base + log.table.size := by
      rw [h.base_eq]
      omega
    have hi := intern_of_notMem (h.names_eq ▸ hnot)
    rw [if_neg (not_not_intro hlegal), if_neg hroom', h.base_eq] at hi
    refine ⟨_, hi, ?_⟩
    rw [Log.ask, hi]
    exact (known_concat ..).trans (if_neg hnot)
  illegal := by
    intro name hnot hlegal
    have hi := intern_of_notMem (h.names_eq ▸ hnot)
    rw [if_pos hlegal] at hi
    exact ⟨hi, by rw [Log.ask, hi]⟩
  full := by
    intro name hnot hlegal hfull
    have hi := intern_of_notMem (h.names_eq ▸ hnot)
    rw [if_neg (not_not_intro hlegal), if_pos (by rw [h.base_eq]; exact hfull)] at hi
    exact ⟨hi, by rw [Log.ask, hi]⟩

end Kept

end Log

end NameTable

/-! ### Texts by their codes -/

namespace NameTable

variable {standard : List String} {t t' : NameTable} {text : String} {code : Nat}

theorem Gives.getElem?_of_ok (h : t.Gives standard text (.ok (code, t'))) {c : Nat}
    {other : String} (hc : (t.texts standard)[c]? = some other) :
    (t'.texts standard)[c]? = some other := by
  cases h with
  | known => exact hc
  | added =>
    rw [texts_push, List.getElem?_append_left (List.getElem?_eq_some_iff.1 hc).1]
    exact hc

/-- A text that is found gets its code again, and nothing changes. -/
theorem Gives.again (hsound : t.Sound standard) {result : Except NameError (Nat × NameTable)}
    (h : t.Gives standard text result)
    (hfind : (t.texts standard).findIdx? (· == text) = some code) : result = .ok (code, t) := by
  have hcode := (findIdx?_beq_eq_some_iff hsound.nodup).1 hfind
  have hmem := List.mem_of_getElem? hcode
  cases h with
  | known hcode' => rw [hsound.code_inj hcode' hcode]
  | illegal hnew => exact absurd hmem hnew
  | full hnew => exact absurd hmem hnew
  | added hnew => exact absurd hmem hnew

/-- A code whose text is no standard one lies behind the standard codes. -/
theorem le_code_of_notMem (hcode : (t.texts standard)[code]? = some text)
    (hcustom : text ∉ standard) : standard.length ≤ code := by
  by_contra hlt
  rw [texts, List.getElem?_append_left (Nat.lt_of_not_le hlt)] at hcode
  exact hcustom (List.mem_of_getElem? hcode)

theorem findIdx?_texts (hbase : t.base = standard.length) (text : String) :
    (t.texts standard).findIdx? (· == text) =
      (standard.findIdx? (· == text)).or (t.code? text) := by
  rw [texts, List.findIdx?_append, code?_eq, hbase]
  simp only [Nat.add_comm]

/-- The texts of the table are the standard ones and the accepted ones, and those that were accepted
have their codes. -/
structure Accepts (standard : List String) (t : NameTable) (accepted : List (String × Nat)) :
    Prop where
  sound : t.Sound standard
  resolves : ∀ p ∈ accepted, (t.texts standard)[p.2]? = some p.1
  mem_texts : ∀ text, text ∈ t.texts standard ↔ text ∈ standard ∨ text ∈ accepted.map Prod.fst

theorem Sound.accepts (h : (empty standard.length).Sound standard) :
    (empty standard.length).Accepts standard [] :=
  ⟨h, nofun, fun text => by simp [texts, empty]⟩

/-- **What is accepted is added to what was accepted before.** -/
theorem Accepts.add {accepted : List (String × Nat)} (h : t.Accepts standard accepted)
    (hgives : t.Gives standard text (.ok (code, t'))) :
    t'.Accepts standard (accepted ++ [(text, code)]) := by
  obtain ⟨hsound, hcode⟩ := hgives.sound h.sound
  refine ⟨hsound, List.forall_mem_append.2
    ⟨fun p hp => hgives.getElem?_of_ok (h.resolves p hp), List.forall_mem_singleton.2 hcode⟩,
    fun other => ?_⟩
  rw [hgives.mem_texts, h.mem_texts, or_assoc]
  simp

end NameTable

/-! ### Looking names up -/

namespace Names

variable {names names' : Names} {text : String}

theorem length_standardElementTexts : standardElementTexts.length = standardElements.size := by
  simp [standardElementTexts]

theorem length_standardAttributeTexts :
    standardAttributeTexts.length = standardAttributes.size := by
  simp [standardAttributeTexts]

theorem Sound.elementNamed?_eq (h : names.Sound) (text : String) :
    names.elementNamed? text = (names.elementTexts.findIdx? (· == text)).map ElementName.mk := by
  rw [elementNamed?, standardElement?, elementTexts, NameTable.findIdx?_texts h.elements.base,
    findIdx?_standardElementTexts]
  cases standardElements.findIdx? (·.1 == text) <;> rfl

theorem Sound.attributeNamed?_eq (h : names.Sound) (text : String) :
    names.attributeNamed? text =
      (names.attributeTexts.findIdx? (· == text)).map AttributeName.mk := by
  rw [attributeNamed?, standardAttribute?, attributeTexts,
    NameTable.findIdx?_texts h.attributes.base, findIdx?_standardAttributeTexts]
  cases standardAttributes.findIdx? (· == text) <;> rfl

theorem Sound.isSome_elementNamed?_iff (h : names.Sound) :
    (names.elementNamed? text).isSome ↔ text ∈ names.elementTexts := by
  rw [h.elementNamed?_eq, Option.isSome_map, isSome_findIdx?_beq_iff]

theorem Sound.isSome_attributeNamed?_iff (h : names.Sound) :
    (names.attributeNamed? text).isSome ↔ text ∈ names.attributeTexts := by
  rw [h.attributeNamed?_eq, Option.isSome_map, isSome_findIdx?_beq_iff]

/-- **A name that is found would get the code that it has.** -/
theorem Sound.internElement_of_named (h : names.Sound) {name : ElementName}
    (hn : names.elementNamed? text = some name) : names.internElement text = .ok (name, names) := by
  obtain ⟨code, hcode, rfl⟩ := Option.map_eq_some_iff.1 ((h.elementNamed?_eq text).symm.trans hn)
  obtain ⟨result, hgives, heq⟩ := h.internElement_gives text
  rw [heq, hgives.again h.elements hcode]
  rfl

theorem Sound.internAttribute_of_named (h : names.Sound) {name : AttributeName}
    (hn : names.attributeNamed? text = some name) :
    names.internAttribute text = .ok (name, names) := by
  obtain ⟨code, hcode, rfl⟩ := Option.map_eq_some_iff.1 ((h.attributeNamed?_eq text).symm.trans hn)
  obtain ⟨result, hgives, heq⟩ := h.internAttribute_gives text
  rw [heq, hgives.again h.attributes hcode]
  rfl

theorem Sound.clear_eq (h : names.Sound) : names.clear = standard := by
  rw [clear, NameTable.clear, NameTable.clear, h.elements.base, h.attributes.base,
    length_standardElementTexts, length_standardAttributeTexts]
  rfl

theorem kind_eq_normal {name : ElementName} (h : standardElements.size ≤ name.code) :
    name.kind = .normal := by
  rw [ElementName.kind, Array.getElem?_eq_none h]

/-! ### Logs of the names of a document -/

/-- A request to the names of a document. -/
inductive Request where
  | element (text : String)
  | attr (text : String)
  | clear

structure Log where
  names : Names
  elements : List (String × ElementName)
  attributes : List (String × AttributeName)

namespace Log

def start : Log := ⟨standard, [], []⟩

def ask (log : Log) : Request → Log
  | .element text =>
    match log.names.internElement text with
    | .ok (name, names) => ⟨names, log.elements ++ [(text, name)], log.attributes⟩
    | .error _ => log
  | .attr text =>
    match log.names.internAttribute text with
    | .ok (name, names) => ⟨names, log.elements, log.attributes ++ [(text, name)]⟩
    | .error _ => log
  | .clear => ⟨log.names.clear, [], []⟩

def askAll (log : Log) (requests : List Request) : Log := requests.foldl ask log

/-- The names answer what was accepted, and nothing else beside the standard names. -/
structure Faithful (log : Log) : Prop where
  /-- An accepted name is read back from the code it got. -/
  elementText : ∀ p ∈ log.elements, log.names.elementText p.2 = .ok p.1
  attributeText : ∀ p ∈ log.attributes, log.names.attributeText p.2 = .ok p.1
  /-- Exactly the standard names and the accepted ones are found. -/
  element_found_iff : ∀ text, (log.names.elementNamed? text).isSome ↔
    text ∈ standardElementTexts ∨ text ∈ log.elements.map Prod.fst
  attribute_found_iff : ∀ text, (log.names.attributeNamed? text).isSome ↔
    text ∈ standardAttributeTexts ∨ text ∈ log.attributes.map Prod.fst
  /-- A name is found with the code that it would get, and getting it changes nothing. -/
  element_again : ∀ text name, log.names.elementNamed? text = some name →
    log.names.internElement text = .ok (name, log.names)
  attribute_again : ∀ text name, log.names.attributeNamed? text = some name →
    log.names.internAttribute text = .ok (name, log.names)
  /-- Names of the document's own lie behind the standard ones, and its own elements are normal. -/
  element_custom : ∀ p ∈ log.elements, p.1 ∉ standardElementTexts →
    standardElements.size ≤ p.2.code ∧ p.2.kind = .normal
  attribute_custom : ∀ p ∈ log.attributes, p.1 ∉ standardAttributeTexts →
    standardAttributes.size ≤ p.2.code

/-- The two tables are made of what was accepted. -/
structure Kept (log : Log) : Prop where
  elements : log.names.elements.Accepts standardElementTexts
    (log.elements.map fun p => (p.1, p.2.code))
  attributes : log.names.attributes.Accepts standardAttributeTexts
    (log.attributes.map fun p => (p.1, p.2.code))

namespace Kept

variable {log : Log}

theorem sound (h : log.Kept) : log.names.Sound := ⟨h.elements.sound, h.attributes.sound⟩

theorem start : Log.start.Kept :=
  ⟨sound_standard.elements.accepts, sound_standard.attributes.accepts⟩

/-- **A request keeps what the log says of the names.** -/
theorem ask (h : log.Kept) (request : Request) : (log.ask request).Kept := by
  cases request with
  | clear =>
    rw [Log.ask, h.sound.clear_eq]
    exact start
  | element text =>
    rw [Log.ask]
    cases hi : log.names.internElement text with
    | error e => exact h
    | ok result =>
      obtain ⟨name, names⟩ := result
      obtain ⟨t, rfl, hgives⟩ := h.sound.gives_of_internElement hi
      refine ⟨?_, h.attributes⟩
      rw [List.map_append]
      exact h.elements.add hgives
  | attr text =>
    rw [Log.ask]
    cases hi : log.names.internAttribute text with
    | error e => exact h
    | ok result =>
      obtain ⟨name, names⟩ := result
      obtain ⟨t, rfl, hgives⟩ := h.sound.gives_of_internAttribute hi
      refine ⟨h.elements, ?_⟩
      rw [List.map_append]
      exact h.attributes.add hgives

theorem askAll (h : log.Kept) (requests : List Request) : (log.askAll requests).Kept := by
  induction requests generalizing log with
  | nil => exact h
  | cons request requests ih => exact ih (h.ask request)

theorem elementText? (h : log.Kept) {p : String × ElementName} (hp : p ∈ log.elements) :
    log.names.elementTexts[p.2.code]? = some p.1 := h.elements.resolves _ (List.mem_map_of_mem hp)

theorem attributeText? (h : log.Kept) {p : String × AttributeName} (hp : p ∈ log.attributes) :
    log.names.attributeTexts[p.2.code]? = some p.1 :=
  h.attributes.resolves _ (List.mem_map_of_mem hp)

/-- **The names are faithful** where their tables are made of what was accepted. -/
theorem faithful (h : log.Kept) : log.Faithful where
  elementText := fun p hp =>
    elementText_eq_ok_iff.2 ((h.sound.elementText?_eq p.2).trans (h.elementText? hp))
  attributeText := fun p hp =>
    attributeText_eq_ok_iff.2 ((h.sound.attributeText?_eq p.2).trans (h.attributeText? hp))
  element_found_iff := fun text => by
    rw [h.sound.isSome_elementNamed?_iff, elementTexts, h.elements.mem_texts, List.map_map]
    rfl
  attribute_found_iff := fun text => by
    rw [h.sound.isSome_attributeNamed?_iff, attributeTexts, h.attributes.mem_texts, List.map_map]
    rfl
  element_again := fun _ _ hn => h.sound.internElement_of_named hn
  attribute_again := fun _ _ hn => h.sound.internAttribute_of_named hn
  element_custom := fun p hp hcustom => by
    have hle := NameTable.le_code_of_notMem (h.elementText? hp) hcustom
    rw [length_standardElementTexts] at hle
    exact ⟨hle, kind_eq_normal hle⟩
  attribute_custom := fun p hp hcustom => by
    have hle := NameTable.le_code_of_notMem (h.attributeText? hp) hcustom
    rwa [length_standardAttributeTexts] at hle

end Kept

end Log

/-- **Codes are dense and names are read back, over every course of requests.**  In a table the
accepted names are numbered from its base on and found by their codes; the names of a document find
exactly the standard names and the accepted ones, and read back those that were accepted. -/
theorem codes_faithful :
    (∀ (base : Nat) (requests : List NameTable.Request),
      ((NameTable.Log.start base).askAll requests).Dense base) ∧
    ∀ requests : List Request, (Log.start.askAll requests).Faithful :=
  ⟨fun base requests => ((NameTable.Log.Kept.start base).askAll requests).dense,
    fun requests => (Log.Kept.start.askAll requests).faithful⟩

end Names

end HtmlTape
