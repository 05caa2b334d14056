import HtmlTape.Proofs.Event.Played
import HtmlTape.Proofs.Writer.Handled

/-!
# What a sink is fed

Whatever the sink, a writer hands it the chunks of a document in one fixed row, and stops at the
first chunk that is refused.  `Sink.Ends` says how such a row ends: all chunks were taken, or one
was refused and none was handed over after it.  A writer that has met any events has fed its sink
the chunks of all their pieces (`Writer.events_eq`); so every sink, formatter or device sees a part
from the front of the same output (`Recording.written_of_madeBy`).
-/

namespace HtmlTape

variable {σ : Type}

/-! ### Rows of chunks -/

namespace Sink

variable {sink : Sink σ} {s : σ} {chunks : List String}

/-- The sink takes the chunks one after another, and none of them is refused. -/
inductive Takes (sink : Sink σ) : σ → List String → σ → Prop where
  | nil {s : σ} : Takes sink s [] s
  | cons {s s₁ s₂ : σ} {chunk : String} {chunks : List String} :
    sink.write s chunk = (s₁, none) → Takes sink s₁ chunks s₂ → Takes sink s (chunk :: chunks) s₂

/-- How a row of chunks ends for a sink.  Either all of them were taken, or the first ones were
taken, the next one was refused, and that was the last one to be handed over. -/
inductive Ends (sink : Sink σ) (s : σ) (chunks : List String) : σ → Except WriteError σ → Prop where
  | taken {s₁ : σ} : sink.Takes s chunks s₁ → Ends sink s chunks s₁ (.ok s₁)
  | refused {before after : List String} {chunk : String} {s₁ s₂ : σ} {e : WriteError} :
    chunks = before ++ chunk :: after → sink.Takes s before s₁ →
    sink.write s₁ chunk = (s₂, some e) → Ends sink s chunks s₂ (.error e)

/-- A sink that takes every chunk and keeps the row of them. -/
def log : Sink (List String) where
  write s chunk := (s ++ [chunk], none)

/-- The sink together with the text that it has taken. -/
def withText (sink : Sink σ) : Sink (σ × String) where
  write s chunk :=
    match sink.write s.1 chunk with
    | (s₁, none) => ((s₁, s.2 ++ chunk), none)
    | (s₁, some e) => ((s₁, s.2), some e)

/-- **A row of chunks ends in one of the two ways.** -/
theorem feed_ends {w : Writer σ} (h : sink.feed s chunks = (w.sink, w.error)) :
    sink.Ends s chunks w.sink w.finish := by
  obtain ⟨format, layout, s₂, e⟩ := w
  simp only at h
  induction chunks generalizing s with
  | nil =>
    cases h
    exact .taken .nil
  | cons chunk chunks ih =>
    rw [feed] at h
    cases hw : sink.write s chunk with
    | mk s₁ e₁ =>
      rw [hw] at h
      cases e₁ with
      | some e₁ =>
        cases h
        exact .refused (List.nil_append _).symm .nil hw
      | none =>
        have hrest := ih h
        cases e with
        | none =>
          cases hrest with
          | taken htaken => exact .taken (.cons hw htaken)
        | some e =>
          cases hrest with
          | refused hchunks htaken hrefused =>
            rw [hchunks]
            exact .refused (List.cons_append).symm (.cons hw htaken) hrefused

theorem log_feed (row chunks : List String) : log.feed row chunks = (row ++ chunks, none) := by
  induction chunks generalizing row with
  | nil => rw [feed, List.append_nil]
  | cons chunk chunks ih =>
    show log.feed (row ++ [chunk]) chunks = _
    rw [ih, List.append_assoc, List.singleton_append]

/-- What a sink has taken is a part from the front of all chunks, and all of it if none was
refused. -/
theorem withText_feed (s : σ) (written : String) (chunks : List String) :
    ∃ taken, taken <+: chunks ∧
      (sink.withText.feed (s, written) chunks).1.2 = written ++ String.join taken ∧
      ((sink.withText.feed (s, written) chunks).2 = none → taken = chunks) := by
  induction chunks generalizing s written with
  | nil => exact ⟨[], List.prefix_rfl, String.append_empty.symm, fun _ => rfl⟩
  | cons chunk chunks ih =>
    have hwrite : sink.withText.write (s, written) chunk =
        match sink.write s chunk with
        | (s₁, none) => ((s₁, written ++ chunk), none)
        | (s₁, some e) => ((s₁, written), some e) := rfl
    rw [feed, hwrite]
    cases hw : sink.write s chunk with
    | mk s₁ e =>
      cases e with
      | some e => exact ⟨[], List.nil_prefix, String.append_empty.symm, fun h => by cases h⟩
      | none =>
        obtain ⟨taken, hfront, htext, hall⟩ := ih s₁ (written ++ chunk)
        refine ⟨chunk :: taken, (List.prefix_cons_inj chunk).2 hfront, ?_, ?_⟩
        · show (sink.withText.feed (s₁, written ++ chunk) chunks).1.2 = _
          rw [htext, String.join_cons, String.append_assoc]
        · intro h
          rw [hall h]

end Sink

/-! ### Formatters -/

/-- A formatter that refuses a chunk gives no reason. -/
theorem Formatter.feed_ends (formatter : Formatter σ) (s : σ) (chunks : List String) :
    formatter.sink.Ends s chunks (formatter.sink.feed s chunks).1
      (if (formatter.sink.feed s chunks).2.isNone then .ok (formatter.sink.feed s chunks).1
        else .error .format) := by
  cases hfeed : formatter.sink.feed s chunks with
  | mk s₁ e =>
    have hends := Sink.feed_ends (w := ⟨.minified, Layout.start, s₁, e⟩) hfeed
    cases e with
    | none => exact hends
    | some e =>
      cases hends with
      | @refused _ _ chunk s₀ _ _ hchunks htaken hrefused =>
        have he : (if (formatter.write s₀ chunk).2 then none else some WriteError.format) =
            some e := congrArg Prod.snd hrefused
        by_cases hw : (formatter.write s₀ chunk).2
        · rw [if_pos hw] at he
          cases he
        · rw [if_neg hw] at he
          cases he
          exact .refused hchunks htaken hrefused

/-! ### Bytes of texts -/

theorem toList_loop_eq (bytes : ByteArray) (i : Nat) (back : List UInt8) :
    ByteArray.toList.loop bytes i back = back.reverse ++ bytes.data.toList.drop i := by
  induction i, back using ByteArray.toList.loop.induct bytes with
  | case1 i back hlt ih =>
    have hget : bytes.data.toList.drop i = bytes.get! i :: bytes.data.toList.drop (i + 1) := by
      have hi : i < bytes.data.toList.length := by simpa using hlt
      rw [List.drop_eq_getElem_cons hi]
      congr 1
      show bytes.data.toList[i] = bytes.data[i]!
      rw [Array.getElem_toList, getElem!_pos]
    rw [ByteArray.toList.loop, if_pos hlt, ih, hget, List.reverse_cons, List.append_assoc]
    rfl
  | case2 i back hge =>
    rw [ByteArray.toList.loop, if_neg hge, List.drop_of_length_le, List.append_nil]
    rw [Array.length_toList]
    exact Nat.le_of_not_lt hge

theorem toUTF8_join (texts : List String) :
    (String.join texts).toUTF8.toList = texts.flatMap (·.toUTF8.toList) := by
  induction texts with
  | nil => decide +kernel
  | cons text texts ih =>
    rw [List.flatMap_cons, ← ih, String.join_cons]
    simp only [String.toUTF8_eq_toByteArray, ByteArray.toList, toList_loop_eq, List.reverse_nil,
      List.nil_append, List.drop_zero, String.toByteArray_append, ByteArray.data_append,
      Array.toList_append]

/-! ### Devices -/

namespace Device

variable {device : Device σ}

def withBytes (device : Device σ) : Device (σ × List UInt8) where
  write s bytes :=
    match device.write s.1 bytes with
    | (s₁, .ok taken) => ((s₁, s.2 ++ bytes.take taken), .ok taken)
    | (s₁, .error reason) => ((s₁, s.2), .error reason)

/-- The device never fails, and takes at least one byte of some. -/
def Obliging (device : Device σ) : Prop :=
  ∀ s bytes, bytes ≠ [] → ∃ s₁ taken, device.write s bytes = (s₁, .ok (taken + 1))

/-- What a device has taken is a part from the front of the bytes that it was handed, and all of
them if there was no failure. -/
theorem withBytes_writeAll (device : Device σ) (s : σ) (written bytes : List UInt8) :
    ∃ taken, taken <+: bytes ∧
      (device.withBytes.writeAll (s, written) bytes).1.2 = written ++ taken ∧
      ((device.withBytes.writeAll (s, written) bytes).2 = none → taken = bytes) := by
  induction hn : bytes.length using Nat.strongRecOn generalizing s written bytes with
  | ind n ih =>
    rw [writeAll]
    by_cases hempty : bytes.isEmpty
    · rw [if_pos hempty]
      have hnil : bytes = [] := List.isEmpty_iff.1 hempty
      exact ⟨[], List.nil_prefix, (List.append_nil _).symm, fun _ => hnil.symm⟩
    · rw [if_neg hempty]
      have hwrite : device.withBytes.write (s, written) bytes =
          match device.write s bytes with
          | (s₁, .ok taken) => ((s₁, written ++ bytes.take taken), .ok taken)
          | (s₁, .error reason) => ((s₁, written), .error reason) := rfl
      rw [hwrite]
      cases hw : device.write s bytes with
      | mk s₁ answer =>
        cases answer with
        | error reason =>
          exact ⟨[], List.nil_prefix, (List.append_nil _).symm, fun h => by cases h⟩
        | ok count =>
          cases count with
          | zero => exact ⟨[], List.nil_prefix, rfl, fun h => by cases h⟩
          | succ count =>
            have hlt : (bytes.drop (count + 1)).length < n := by
              have hpos : bytes.length ≠ 0 := by
                intro h
                exact hempty (List.isEmpty_iff.2 (List.length_eq_zero_iff.1 h))
              rw [List.length_drop]
              omega
            obtain ⟨taken, hfront, hbytes, hall⟩ :=
              ih _ hlt s₁ (written ++ bytes.take (count + 1)) (bytes.drop (count + 1)) rfl
            refine ⟨bytes.take (count + 1) ++ taken, ?_, ?_, ?_⟩
            · have h := (List.prefix_append_right_inj (bytes.take (count + 1))).2 hfront
              rwa [List.take_append_drop] at h
            · show (device.withBytes.writeAll _ _).1.2 = _
              rw [hbytes, List.append_assoc]
            · intro h
              rw [hall h, List.take_append_drop]

theorem withBytes_feed (device : Device σ) (s : σ) (written : List UInt8)
    (chunks : List String) :
    ∃ taken, taken <+: chunks.flatMap (·.toUTF8.toList) ∧
      (device.withBytes.sink.feed (s, written) chunks).1.2 = written ++ taken ∧
      ((device.withBytes.sink.feed (s, written) chunks).2 = none →
        taken = chunks.flatMap (·.toUTF8.toList)) := by
  induction chunks generalizing s written with
  | nil => exact ⟨[], List.prefix_rfl, (List.append_nil _).symm, fun _ => rfl⟩
  | cons chunk chunks ih =>
    obtain ⟨taken, hfront, hbytes, hall⟩ :=
      device.withBytes_writeAll s written chunk.toUTF8.toList
    have hwrite : device.withBytes.sink.write (s, written) chunk =
        ((device.withBytes.writeAll (s, written) chunk.toUTF8.toList).1,
          (device.withBytes.writeAll (s, written) chunk.toUTF8.toList).2.map .io) := rfl
    rw [Sink.feed, hwrite, List.flatMap_cons]
    cases hr : device.withBytes.writeAll (s, written) chunk.toUTF8.toList with
    | mk result failure =>
      rw [hr] at hbytes hall
      cases failure with
      | some reason =>
        exact ⟨taken, hfront.trans (List.prefix_append _ _), hbytes, fun h => by cases h⟩
      | none =>
        obtain ⟨s₁, written₁⟩ := result
        have hchunk : taken = chunk.toUTF8.toList := hall rfl
        have hwritten : written₁ = written ++ chunk.toUTF8.toList := by
          rw [← hchunk]
          exact hbytes
        obtain ⟨rest, hfront', hbytes', hall'⟩ := ih s₁ written₁
        refine ⟨chunk.toUTF8.toList ++ rest, ?_, ?_, ?_⟩
        · exact (List.prefix_append_right_inj _).2 hfront'
        · show (device.withBytes.sink.feed (s₁, written₁) chunks).1.2 = _
          rw [hbytes', hwritten, List.append_assoc]
        · intro h
          rw [hall' h]

theorem Obliging.writeAll (h : device.Obliging) (s : σ) (bytes : List UInt8) :
    (device.writeAll s bytes).2 = none := by
  induction hn : bytes.length using Nat.strongRecOn generalizing s bytes with
  | ind n ih =>
    rw [Device.writeAll]
    by_cases hempty : bytes.isEmpty
    · rw [if_pos hempty]
    · have hne : bytes ≠ [] := by
        intro hnil
        exact hempty (List.isEmpty_iff.2 hnil)
      obtain ⟨s₁, taken, hw⟩ := h s bytes hne
      rw [if_neg hempty, hw]
      refine ih _ ?_ s₁ _ rfl
      have hpos := List.length_pos_of_ne_nil hne
      rw [List.length_drop]
      omega

theorem Obliging.feed (h : device.Obliging) (s : σ) (chunks : List String) :
    (device.sink.feed s chunks).2 = none := by
  induction chunks generalizing s with
  | nil => rfl
  | cons chunk chunks ih =>
    have hwrite : device.sink.write s chunk =
        ((device.writeAll s chunk.toUTF8.toList).1, none) := by
      show (_, Option.map _ (device.writeAll s chunk.toUTF8.toList).2) = _
      rw [h.writeAll]
      rfl
    rw [Sink.feed, hwrite]
    exact ih _

end Device

/-! ### Documents -/

/-- How a document is written in a format: as a row of chunks that no sink has a say in. -/
structure Document.Writes (d : Document) (format : Format) (chunks : List String) : Prop where
  /-- A sink that never fails is handed all chunks. -/
  log : (d.write format Sink.log []).map Writer.finish = .ok (.ok chunks)
  /-- Every sink is handed the chunks in order, up to the first one that it refuses; if it refuses
  none it is given back, and otherwise the answer is the failure. -/
  sink : ∀ {σ : Type} (sink : Sink σ) (s : σ), ∃ w, d.write format sink s = .ok w ∧
    sink.Ends s chunks w.sink w.finish
  /-- What a sink has taken is a part from the front of the whole text, and all of it unless the
  sink has failed. -/
  front : ∀ {σ : Type} (sink : Sink σ) (s : σ), ∃ w, d.write format sink.withText (s, "") = .ok w ∧
    w.sink.2.toList <+: (String.join chunks).toList ∧
    (w.error = none → w.sink.2 = String.join chunks)
  /-- The chunks make up the text of the document. -/
  text : d.render format = .ok (String.join chunks) ∧
    (d.write format Sink.text "").map Writer.finish = .ok (.ok (String.join chunks))
  /-- A formatter is handed the same chunks, and one that takes everything has the same text. -/
  formatter : d.display format Formatter.text "" = .ok (String.join chunks, true) ∧
    ∀ {σ : Type} (formatter : Formatter σ) (s : σ), ∃ s₁ taken,
      d.display format formatter s = .ok (s₁, taken) ∧
      formatter.sink.Ends s chunks s₁ (if taken then .ok s₁ else .error .format)
  /-- A device takes a part from the front of the bytes of the text; it is all of them unless the
  device has failed, and one that takes something every time does not fail. -/
  device : ∀ {σ : Type} (device : Device σ) (s : σ), ∃ w,
    d.writeTo format device.withBytes (s, []) = .ok w ∧
    w.sink.2 <+: (String.join chunks).toUTF8.toList ∧
    (w.error = none → w.sink.2 = (String.join chunks).toUTF8.toList) ∧
    (device.Obliging → w.error = none)

theorem Device.Obliging.withBytes {device : Device σ} (h : device.Obliging) :
    device.withBytes.Obliging := by
  intro s bytes hne
  obtain ⟨s₁, taken, hw⟩ := h s.1 bytes hne
  refine ⟨(s₁, s.2 ++ bytes.take (taken + 1)), taken, ?_⟩
  simp only [Device.withBytes, hw]

namespace Document

variable {d : Document} {es : List Event}

/-- **The chunks of a document do not depend on the sink.** -/
theorem writes_of_events (h : d.events = .ok es) (format : Format) :
    d.Writes format (format.allChunks (pieces es)) where
  log := by
    rw [write_eq h, Sink.log_feed]
    rfl
  sink sink s := ⟨_, write_eq h format sink s, Sink.feed_ends rfl⟩
  front sink s := by
    refine ⟨_, write_eq h format sink.withText (s, ""), ?_⟩
    obtain ⟨taken, ⟨rest, hchunks⟩, htext, hall⟩ :=
      sink.withText_feed s "" (format.allChunks (pieces es))
    rw [htext, String.empty_append]
    refine ⟨?_, fun hnone => by rw [hall hnone]⟩
    rw [← hchunks, String.join_append, String.toList_append]
    exact List.prefix_append _ _
  text := by
    constructor
    · rw [render_eq, h]
      rfl
    · rw [write_eq h, Sink.text_feed, String.empty_append]
      rfl
  formatter := by
    have hdisplay : ∀ {σ : Type} (formatter : Formatter σ) (s : σ), d.display format formatter s =
        .ok ((formatter.sink.feed s (format.allChunks (pieces es))).1,
          (formatter.sink.feed s (format.allChunks (pieces es))).2.isNone) := by
      intro σ formatter s
      rw [display, write_eq h]
      rfl
    constructor
    · have htext : Formatter.text.sink = Sink.text := rfl
      rw [hdisplay, htext, Sink.text_feed, String.empty_append]
      rfl
    · intro σ formatter s
      exact ⟨_, _, hdisplay formatter s, formatter.feed_ends s _⟩
  device device s := by
    refine ⟨_, write_eq h format device.withBytes.sink (s, []), ?_⟩
    obtain ⟨taken, hfront, hbytes, hall⟩ :=
      device.withBytes_feed s [] (format.allChunks (pieces es))
    rw [toUTF8_join, hbytes, List.nil_append]
    exact ⟨hfront, hall, fun ho => ho.withBytes.feed _ _⟩

end Document

/-- **A document is written in one fixed row of chunks, as far as the sink takes them.**  Every
recording can be compiled, and the document is written in every format as some chunks: each sink is
handed these chunks in order up to the first one that it refuses, and the failure is answered. -/
theorem Recording.writes_of_madeBy {t : Recording} {calls : List SpelledCall}
    (h : t.MadeBy calls) :
    ∃ d, t.compile = .ok d ∧ ∀ format, ∃ chunks, d.Writes format chunks := by
  obtain ⟨draft, d, _, hcompile, _, hevents⟩ := h.played
  exact ⟨d, hcompile, fun format => ⟨_, Document.writes_of_events hevents format⟩⟩

theorem Recording.card_writes : card.MadeBy cardCalls ∧
    ∃ d, card.compile = .ok d ∧ ∀ format, ∃ chunks, d.Writes format chunks :=
  ⟨card_madeBy, writes_of_madeBy card_madeBy⟩

end HtmlTape
