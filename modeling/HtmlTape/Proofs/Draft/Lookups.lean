import HtmlTape.Proofs.Draft.Allowed
import HtmlTape.Proofs.Name.Sound

/-!
# Names that are looked up ahead

The names of a document can be looked up before anything is recorded: after some lookups alone a
draft is blank and knows the names that it knows after a whole course (`Draft.exists_lookups`), as
every course leads from the standard names along lookups (`Draft.requestEach_names`).
-/

namespace HtmlTape

/-! ### Looking up ahead -/

def Names.LooksUp (names names' : Names) : Prop :=
  ∃ lookups : List SpelledCall, ∀ m : Draft String, m.names = names →
    m.Takes lookups { m with names := names' }

theorem Names.path_looksUp : Names.Path Names.LooksUp where
  refl names := ⟨[], by rintro m rfl; exact .nil m⟩
  trans := by
    rintro a b c ⟨lookups, hab⟩ ⟨lookups', hbc⟩
    exact ⟨lookups ++ lookups', fun m hm => (hab m hm).append (hbc { m with names := b } rfl)⟩
  element := by
    intro names names' text name hi
    refine ⟨[.internElement (.spelled text)], ?_⟩
    rintro m rfl
    have hrun : (Lookup.call (.internElement (.spelled text))).run
        { Recorder.new with names := m.names } =
          (.ok (.internElement name), { Recorder.new with names := names' }) := by
      refine Lookup.run_bind_ok (x := Lookup.element (.spelled text)) _ ?_
      rw [Lookup.element, Lookup.run_of, Recorder.internElement, hi]
      rfl
    exact .of_run hrun trivial rfl
  attr := by
    intro names names' text name hi
    refine ⟨[.internAttribute (.spelled text)], ?_⟩
    rintro m rfl
    have hrun : (Lookup.call (.internAttribute (.spelled text))).run
        { Recorder.new with names := m.names } =
          (.ok (.internAttribute name), { Recorder.new with names := names' }) := by
      refine Lookup.run_bind_ok (x := Lookup.attr (.spelled text)) _ ?_
      rw [Lookup.attr, Lookup.run_of, Recorder.internAttribute, hi]
      rfl
    exact .of_run hrun trivial rfl

namespace Draft

variable {m m' : Draft String}

/-- A draft on which nothing stands. -/
def blank (names : Names) : Draft String := ⟨⟨.root, []⟩, [], names⟩

/-- **The names of a draft can be looked up ahead.** -/
theorem exists_lookups {calls : List SpelledCall} (h : new.requestEach calls = some m) :
    ∃ lookups, new.Takes lookups (blank m.names) := by
  obtain ⟨lookups, htakes⟩ := requestEach_names Names.path_looksUp h
  exact ⟨lookups, htakes new rfl⟩

end Draft

/-! ### Names that are known -/

theorem Draft.takes_coded {m m' : Draft String} (call : Call ElementName AttributeName)
    (hallow : m.Allows call) (hstep : m.step call = some m') : m.Takes [call.coded] m' :=
  .of_run (Lookup.run_coded call _) hallow hstep

end HtmlTape
