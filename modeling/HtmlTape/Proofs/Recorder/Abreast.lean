import HtmlTape.Proofs.Draft.Smooth
import HtmlTape.Proofs.Recorder.Granted

/-!
# Two recorders abreast

Two recorders are abreast if they know the same names and have the same places for the next id and
the next literal; what they hold may differ.  Entries can be added to both at once
(`Recorder.AddsBoth`): items with the same texts, that are the same items once fragments are taken
away from them.

Then an element that claims the entries is granted by both or by none, and both hold the same
element (`Recorder.AddsBoth.elementWith`).  A fragment of the entries of one recorder makes no
difference (`Recorder.AddsBoth.flatten_left`).
-/

namespace HtmlTape

namespace Recorder

variable {r r' q q' u u' v : Recorder} {as bs cs ds : List Nat}

/-! ### Ids -/

theorem ids_closeElement {o : Nat} (h : r.closeElement = .ok (o, q)) : q.ids = r.ids := by
  obtain ⟨_, _, _, _, _, _, _, rfl⟩ := closeElement_result h
  rfl

theorem ids_endFragment {o : Nat} (h : r.endFragment = .ok (o, q)) : q.ids = r.ids := by
  obtain ⟨_, _, _, _, _, rfl⟩ := endFragment_result h
  rfl

theorem ids_openElementWith {name : ElementName} {prepared : List PreparedAttribute}
    {args : List Token} (h : r.openElementWith name prepared args = .ok q) : q.ids = r.ids := by
  obtain ⟨_, _, s, hprepared, rfl⟩ := openElementWith_eq_ok h
  obtain ⟨_, rfl⟩ := preparedAttributes_eq_ok prepared hprepared
  rfl

theorem ids_recordMark {mark : Mark String} {o : Nat} (h : r.recordMark mark = .ok (o, q)) :
    q.ids = r.ids := by
  cases mark with
  | text value | raw value | doctype =>
    cases h
    rfl
  | valued name value | boolean name =>
    obtain ⟨_, _, h⟩ := of_bind_eq_ok h
    cases h
    rfl

/-! ### Names -/

theorem names_closeElement {o : Nat} (h : r.closeElement = .ok (o, q)) : q.names = r.names := by
  obtain ⟨_, _, _, _, _, _, _, _, _, hnames⟩ := closeElement_eq_ok h
  exact hnames

theorem names_endFragment {o : Nat} (h : r.endFragment = .ok (o, q)) : q.names = r.names := by
  obtain ⟨_, _, _, _, _, _, _, hnames⟩ := endFragment_eq_ok h
  exact hnames

theorem names_openElementWith {name : ElementName} {prepared : List PreparedAttribute}
    {args : List Token} (h : r.openElementWith name prepared args = .ok q) : q.names = r.names := by
  obtain ⟨_, _, s, hprepared, rfl⟩ := openElementWith_eq_ok h
  obtain ⟨_, rfl⟩ := preparedAttributes_eq_ok prepared hprepared
  rfl

theorem openElementWith_ok_iff (r : Recorder) (name : ElementName)
    (prepared : List PreparedAttribute) (args : List Token) :
    (∃ q, r.openElementWith name prepared args = .ok q) ↔
      (∃ x, r.current.claim args = .ok x) ∧ (r.names.elementText? name).isSome ∧
        ∀ p ∈ prepared, (r.names.attributeText? p.name).isSome := by
  have hiff := r.openWith_ok_iff name (prepared.map fun p => (p.name, p.value)) args
  have hprepared : (prepared.map fun p => (p.name, p.value)).map
      (fun a => PreparedAttribute.mk a.1 a.2) = prepared := by
    rw [List.map_map]
    exact List.map_id prepared
  have hstep : r.step (.openWith name (prepared.map fun p => (p.name, p.value)) args) =
      (r.openElementWith name ((prepared.map fun p => (p.name, p.value)).map fun a =>
        PreparedAttribute.mk a.1 a.2) args).map Answer.ofRecorder := rfl
  rw [hstep, hprepared, List.forall_mem_map] at hiff
  rw [← hiff]
  constructor
  · rintro ⟨q, hq⟩
    exact ⟨_, congrArg (Except.map Answer.ofRecorder) hq⟩
  · rintro ⟨x, hx⟩
    obtain ⟨q, hq, _⟩ := of_map_eq_ok hx
    exact ⟨q, hq⟩

/-! ### Recorders abreast -/

/-- The recorders know the same names, and the next id and the place of the next literal are the
same. -/
structure Abreast (r r' : Recorder) : Prop where
  left : ∃ m, r.Mirrors m
  right : ∃ n, r'.Mirrors n
  names : r'.names = r.names
  ids : r'.ids = r.ids
  poolHere : r'.current.poolHere = r.current.poolHere

theorem Abreast.symm (h : r.Abreast r') : r'.Abreast r :=
  ⟨h.right, h.left, h.names.symm, h.ids.symm, h.poolHere.symm⟩

/-- Between `r` and `q`, and between `r'` and `q'`, entries were added that are the same but for
fragments.  They stand at `as` and at `bs`. -/
structure AddsBoth (r r' q q' : Recorder) (as bs : List Nat) : Prop where
  start : r.Abreast r'
  names : q'.names = q.names
  ids : q'.ids = q.ids
  adds : ∀ m n, r.Mirrors m → r'.Mirrors n → ∃ xs ys text, r.Adds m q as xs text ∧
    r'.Adds n q' bs ys text ∧ Item.smoothAll xs = Item.smoothAll ys

namespace AddsBoth

theorem refl (h : r.Abreast r') : r.AddsBoth r' r r' [] [] where
  start := h
  names := h.names
  ids := h.ids
  adds := fun _ _ hm hn => ⟨[], [], "", .refl hm, .refl hn, rfl⟩

theorem symm (h : r.AddsBoth r' q q' as bs) : r'.AddsBoth r q' q bs as where
  start := h.start.symm
  names := h.names.symm
  ids := h.ids.symm
  adds := by
    intro n m hn hm
    obtain ⟨xs, ys, text, hadds, hadds', hsmooth⟩ := h.adds m n hm hn
    exact ⟨ys, xs, text, hadds', hadds, hsmooth.symm⟩

theorem abreast (h : r.AddsBoth r' q q' as bs) : q.Abreast q' := by
  obtain ⟨m, hm⟩ := h.start.left
  obtain ⟨n, hn⟩ := h.start.right
  obtain ⟨xs, ys, text, hadds, hadds', _⟩ := h.adds m n hm hn
  refine ⟨⟨_, hadds.mirrors⟩, ⟨_, hadds'.mirrors⟩, h.names, h.ids, ?_⟩
  rw [hadds.poolHere, hadds'.poolHere, h.start.poolHere]

theorem trans (h : r.AddsBoth r' q q' as bs) (h' : q.AddsBoth q' u u' cs ds) :
    r.AddsBoth r' u u' (as ++ cs) (bs ++ ds) where
  start := h.start
  names := h'.names
  ids := h'.ids
  adds := by
    intro m n hm hn
    obtain ⟨xs, ys, text, hadds, hadds', hsmooth⟩ := h.adds m n hm hn
    obtain ⟨zs, ws, more, hmore, hmore', hsmooth'⟩ := h'.adds _ _ hadds.mirrors hadds'.mirrors
    refine ⟨xs ++ zs, ys ++ ws, text ++ more, hadds.trans hmore, hadds'.trans hmore', ?_⟩
    rw [Item.smoothAll_append, Item.smoothAll_append, hsmooth, hsmooth']

theorem of_levels (h : r.Abreast r') (hn : r.names.Extends q.names) (hnames : q'.names = q.names)
    (hids : q'.ids = q.ids) (hq : q.current = r.current ∧ q.outer = r.outer)
    (hq' : q'.current = r'.current ∧ q'.outer = r'.outer) : r.AddsBoth r' q q' [] [] where
  start := h
  names := hnames
  ids := hids
  adds := by
    intro m n hm hn'
    have hext : r'.names.Extends q'.names := by
      rw [hnames, h.names]
      exact hn
    exact ⟨[], [], "", (Adds.refl hm).congr hq.1 hq.2 hn, (Adds.refl hn').congr hq'.1 hq'.2 hext,
      rfl⟩

/-! ### Leaves -/

/-- **A leaf that one recorder grants is granted by the other one.** -/
theorem recordMark (h : r.Abreast r') (mark : Mark String) {o : Nat}
    (hr : r.recordMark mark = .ok (o, q)) :
    ∃ o' q', r'.recordMark mark = .ok (o', q') ∧ r.AddsBoth r' q q' [o] [o'] := by
  obtain ⟨m, hm⟩ := h.left
  obtain ⟨n, hn⟩ := h.right
  obtain ⟨hknown, hrecords⟩ := (grants_recordMark hm mark).sound _ hr
  rw [← h.names] at hknown
  obtain ⟨⟨o', q'⟩, hr'⟩ := (grants_recordMark hn mark).granted hknown
  obtain ⟨_, hrecords'⟩ := (grants_recordMark hn mark).sound _ hr'
  refine ⟨o', q', hr', h, ?_, ?_, fun m n hm hn => ?_⟩
  · exact hrecords'.names.trans (h.names.trans hrecords.names.symm)
  · exact (ids_recordMark hr').trans (h.ids.trans (ids_recordMark hr).symm)
  · have hadds := ((grants_recordMark hm mark).sound _ hr).2.adds
    have hadds' := ((grants_recordMark hn mark).sound _ hr').2.adds
    rw [h.poolHere] at hadds'
    exact ⟨_, _, _, hadds, hadds', rfl⟩

/-! ### Elements and fragments -/

/-- **An element that claims what was added is granted by both recorders.** -/
theorem elementWith (h : r.AddsBoth r' q q' as bs) {args args' : List Token}
    (hargs : args.filterMap Token.record? = as) (hargs' : args'.filterMap Token.record? = bs)
    {name : ElementName} {prepared : List PreparedAttribute} {o : Nat}
    (hopen : q.openElementWith name prepared args = .ok u) (hclose : u.closeElement = .ok (o, v)) :
    ∃ u' o' v', q'.openElementWith name prepared args' = .ok u' ∧
      u'.closeElement = .ok (o', v') ∧ r.AddsBoth r' v v' [o] [o'] := by
  have hopened : ∃ u', q'.openElementWith name prepared args' = .ok u' := by
    obtain ⟨m, hm⟩ := h.start.left
    obtain ⟨n, hn⟩ := h.start.right
    obtain ⟨_, _, _, _, hadds', _⟩ := h.adds m n hm hn
    obtain ⟨_, hname, hattributes⟩ := (openElementWith_ok_iff q name prepared args).1 ⟨u, hopen⟩
    rw [← h.names] at hname hattributes
    exact (openElementWith_ok_iff q' name prepared args').2
      ⟨⟨_, hadds'.claim hargs'⟩, hname, hattributes⟩
  obtain ⟨u', hopen'⟩ := hopened
  have hinside : ∀ m n, r.Mirrors m → r'.Mirrors n → ∃ xs ys before text,
      r.Inside m before u (.element name) xs text ∧
        r'.Inside n before u' (.element name) ys text ∧ Item.smoothAll xs = Item.smoothAll ys := by
    intro m n hm hn
    obtain ⟨xs, ys, text, hadds, hadds', hsmooth⟩ := h.adds m n hm hn
    have hin := hadds.openElementWith hargs hopen
    have hin' := hadds'.openElementWith hargs' hopen'
    rw [h.abreast.poolHere] at hin'
    refine ⟨_, _, _, _, hin, hin', ?_⟩
    rw [Item.smoothAll_append, Item.smoothAll_append, hsmooth]
  have hclosed : ∃ p, u'.closeElement = .ok p := by
    obtain ⟨m, hm⟩ := h.start.left
    obtain ⟨n, hn⟩ := h.start.right
    obtain ⟨xs, ys, _, _, hin, hin', hsmooth⟩ := hinside m n hm hn
    refine hin'.closeElement_iff.2 fun hv => ?_
    have hvoid := hin.closeElement_iff.1 ⟨_, hclose⟩ hv
    exact (Item.forall_expandedAll_of_smoothAll hsmooth (· = true)).1 hvoid
  obtain ⟨⟨o', v'⟩, hclose'⟩ := hclosed
  refine ⟨u', o', v', hopen', hclose', h.start, ?_, ?_, fun m n hm hn => ?_⟩
  · rw [names_closeElement hclose, names_closeElement hclose', names_openElementWith hopen,
      names_openElementWith hopen', h.names]
  · rw [ids_closeElement hclose, ids_closeElement hclose', ids_openElementWith hopen,
      ids_openElementWith hopen', h.ids]
  · obtain ⟨xs, ys, before, text, hin, hin', hsmooth⟩ := hinside m n hm hn
    refine ⟨_, _, _, hin.closeElement hclose, hin'.closeElement hclose', ?_⟩
    rw [Item.smoothAll_singleton, Item.smoothAll_singleton, Item.smooth, Item.smooth, hsmooth]

/-- **A fragment of what was added to the first recorder makes no difference.** -/
theorem flatten_left (h : r.AddsBoth r' q q' as bs) {args : List Token}
    (hargs : args.filterMap Token.record? = as) {o : Nat} (hr : q.fragment args = .ok (o, u)) :
    r.AddsBoth r' u q' [o] bs := by
  obtain ⟨_, hend⟩ := fragment_eq_ok hr
  refine ⟨h.start, ?_, ?_, fun m n hm hn => ?_⟩
  · rw [h.names, names_endFragment hend]
    rfl
  · rw [h.ids, ids_endFragment hend]
    rfl
  · obtain ⟨xs, ys, text, hadds, hadds', hsmooth⟩ := h.adds m n hm hn
    obtain ⟨_, _, hr', hflat⟩ := hadds.fragment hargs
    cases hr.symm.trans hr'
    refine ⟨_, ys, text, hflat, hadds', ?_⟩
    rw [Item.smoothAll_singleton, Item.smooth, hsmooth]

/-- A fragment of what was added is granted by both recorders. -/
theorem flatten (h : r.AddsBoth r' q q' as bs) {args args' : List Token}
    (hargs : args.filterMap Token.record? = as) (hargs' : args'.filterMap Token.record? = bs)
    {o : Nat} (hr : q.fragment args = .ok (o, u)) :
    ∃ o' u', q'.fragment args' = .ok (o', u') ∧ r.AddsBoth r' u u' [o] [o'] := by
  have hleft := h.flatten_left hargs hr
  obtain ⟨m, hm⟩ := h.start.left
  obtain ⟨n, hn⟩ := h.start.right
  obtain ⟨_, _, _, _, hadds', _⟩ := h.adds m n hm hn
  obtain ⟨o', u', hr', _⟩ := hadds'.fragment hargs'
  exact ⟨o', u', hr', (hleft.symm.flatten_left hargs' hr').symm⟩

end AddsBoth

/-! ### Open fragments -/

theorem Abreast.beginFragment (h : r.Abreast r') : r.beginFragment.Abreast r'.beginFragment := by
  obtain ⟨m, hm⟩ := h.left
  obtain ⟨n, hn⟩ := h.right
  have hin := inside_beginFragment hm
  have hin' := inside_beginFragment hn
  refine ⟨⟨_, hin.mirrors⟩, ⟨_, hin'.mirrors⟩, h.names, h.ids, ?_⟩
  rw [hin.poolHere, hin'.poolHere, h.poolHere]

namespace AddsBoth

/-- What was added inside of fragments that were begun on both recorders. -/
theorem inside (hc : r.beginFragment.AddsBoth r'.beginFragment q q' as bs)
    {m n : Draft Quote} (hm : r.Mirrors m) (hn : r'.Mirrors n) :
    ∃ xs ys text, r.Inside m "" q .fragment xs text ∧ r'.Inside n "" q' .fragment ys text ∧
      Item.smoothAll xs = Item.smoothAll ys := by
  have hin := inside_beginFragment hm
  have hin' := inside_beginFragment hn
  obtain ⟨xs, ys, text, hadds, hadds', hsmooth⟩ := hc.adds _ _ hin.mirrors hin'.mirrors
  exact ⟨_, _, _, hin.add hadds, hin'.add hadds', hsmooth⟩

theorem endFragment (h : r.Abreast r')
    (hc : r.beginFragment.AddsBoth r'.beginFragment q q' as bs) {o : Nat}
    (hr : q.endFragment = .ok (o, u)) :
    ∃ o' u', q'.endFragment = .ok (o', u') ∧ r.AddsBoth r' u u' [o] [o'] := by
  obtain ⟨m, hm⟩ := h.left
  obtain ⟨n, hn⟩ := h.right
  obtain ⟨_, _, _, _, hin', _⟩ := hc.inside hm hn
  obtain ⟨⟨o', u'⟩, hr'⟩ := hin'.exists_endFragment
  refine ⟨o', u', hr', h, ?_, ?_, fun m n hm hn => ?_⟩
  · rw [names_endFragment hr, names_endFragment hr', hc.names]
  · rw [ids_endFragment hr, ids_endFragment hr', hc.ids]
  · obtain ⟨xs, ys, text, hin, hin', hsmooth⟩ := hc.inside hm hn
    refine ⟨_, _, _, hin.endFragment hr, hin'.endFragment hr', ?_⟩
    rw [Item.smoothAll_singleton, Item.smoothAll_singleton, Item.smooth, Item.smooth, hsmooth]

theorem abortFragment (h : r.Abreast r')
    (hc : r.beginFragment.AddsBoth r'.beginFragment q q' as bs) (hr : q.abortFragment = .ok u) :
    ∃ u', q'.abortFragment = .ok u' ∧ r.AddsBoth r' u u' [] [] := by
  obtain ⟨m, hm⟩ := h.left
  obtain ⟨n, hn⟩ := h.right
  obtain ⟨_, _, _, _, hin', _⟩ := hc.inside hm hn
  obtain ⟨u', hr'⟩ := hin'.exists_abortFragment
  have hkeeps : u'.names = u.names ∧ u'.ids = u.ids := by
    obtain ⟨_, _, _, _, rfl⟩ := abortFragment_eq_ok hr
    obtain ⟨_, _, _, _, rfl⟩ := abortFragment_eq_ok hr'
    exact ⟨hc.names, hc.ids⟩
  refine ⟨u', hr', h, hkeeps.1, hkeeps.2, fun m n hm hn => ?_⟩
  obtain ⟨xs, ys, text, hin, hin', _⟩ := hc.inside hm hn
  exact ⟨[], [], "", hin.abortFragment hr, hin'.abortFragment hr', rfl⟩

/-! ### Finishing -/

/-- **Entries that were added to new recorders make the same document.** -/
theorem finish (h : new.AddsBoth new q q' as bs) {t : Recording} (hr : q.finish = .ok (t, u)) :
    ∃ t' u' d, q'.finish = .ok (t', u') ∧ t.compile = .ok d ∧ t'.compile = .ok d := by
  obtain ⟨xs, ys, text, hadds, hadds', hsmooth⟩ := h.adds _ _ mirrors_new mirrors_new
  have hgranted : ∃ p, q'.finish = .ok p := by
    refine hadds'.mirrors.finish_iff.2 ⟨hadds'.outer, ?_⟩
    have hnodes := (hadds.mirrors.finish_iff.1 ⟨_, hr⟩).2
    exact (Item.forall_expandedAll_of_smoothAll hsmooth (· = false)).1 hnodes
  obtain ⟨⟨t', u'⟩, hr'⟩ := hgranted
  have hcompile := hadds.mirrors.compile_eq hr
  have hcompile' := hadds'.mirrors.compile_eq hr'
  have htrees : Draft.trees (Draft.new.append xs q.names) =
      Draft.trees (Draft.new.append ys q'.names) := Item.treesAll_of_smoothAll hsmooth
  rw [← htrees, h.names, hadds'.pool, ← hadds.pool] at hcompile'
  exact ⟨t', u', _, hr', hcompile, hcompile'⟩

end AddsBoth

end Recorder

end HtmlTape
