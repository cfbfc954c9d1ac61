import IndexMerge.Proofs.Merge.Calls
import IndexMerge.Proofs.Merge.Memory
import IndexMerge.Proofs.Merge.Step
import IndexMerge.Proofs.Lexicon.Written

/-!
# The counts of a merge and of its dictionary

A step of a merge counts a term when its entry was taken by the dictionary. If a dictionary keeps
level with the progress where it takes an entry, and is level or ahead where it fails, it is level
with the merge after every call, or the merge goes no further (`step_tallies`). A lexicon writer is
ahead by the entry whose delivery failed: it counts the entry and keeps it staged, but the merge did
not count it (`tally_of_perform`).
-/

namespace IndexMerge

namespace Progress

/-- The progress behind one more entry. -/
def tally (p : Progress) (e : LexiconEntry) : Progress :=
  ⟨p.terms + 1, p.postings + e.statistics.documentFrequency.toNat⟩

/-- The progress that has written these entries. -/
def ofEntries (entries : List LexiconEntry) : Progress :=
  ⟨entries.length, total (entries.map fun e => e.statistics.documentFrequency.toNat)⟩

theorem ofEntries_concat (entries : List LexiconEntry) (e : LexiconEntry) :
    ofEntries (entries ++ [e]) = (ofEntries entries).tally e := by
  simp [ofEntries, tally]

end Progress

namespace Merge

variable {C S D : Type} [RunCursor C] [Dictionary D] {Matching Ahead : Progress → D → Prop}
  {dictionary : D}

/-- A dictionary that is level with a progress and takes an entry is level with the progress behind
it. If it fails to take the entry, it is level as before, or ahead. -/
structure Tallies (Matching Ahead : Progress → D → Prop) : Prop where
  added : ∀ {progress : Progress} {e : LexiconEntry} {d d' : D}, Matching progress d →
    Dictionary.add e d = (.ok (), d') → Matching (progress.tally e) d'
  failed : ∀ {progress : Progress} {e : LexiconEntry} {d d' : D} {error : Error},
    Matching progress d → Dictionary.add e d = (.error error, d') →
      Matching progress d' ∨ Ahead progress d'

/-- The dictionary of a merge is level with its progress, or ahead and the merge goes no further. -/
def Tallied (Matching Ahead : Progress → D → Prop) (m : Merge C S) (dictionary : D) : Prop :=
  Matching m.progress dictionary ∨ m.isPoisoned = true ∧ Ahead m.progress dictionary

variable [PostingSink S]

theorem writeGroup_tallies (tallies : Tallies Matching Ahead) (first : Lease C)
    (rest : List (Lease C)) (m : Merge C S) (h : Matching m.progress dictionary) :
    let outcome := writeGroup first rest m dictionary
    Matching outcome.2.1.progress outcome.2.2 ∨
      (∃ e, outcome.1 = .error e) ∧ Ahead outcome.2.1.progress outcome.2.2 := by
  obtain ⟨e, writes, added, -⟩ | ⟨failed, refuses, none⟩ :=
    writeGroup_cases first rest m dictionary
  · left
    rw [writes.progress_eq]
    exact tallies.added h added
  · rw [← refuses.progress_eq] at h
    obtain same | ⟨e, error, untaken⟩ := none
    · left
      rw [same]
      exact h
    · exact (tallies.failed h untaken).imp id fun ahead => ⟨failed, ahead⟩

/-- A step leaves the dictionary level with the progress, or ahead of a merge that goes no
further. -/
theorem step_tallies (tallies : Tallies Matching Ahead) (m : Merge C S) (dictionary : D)
    (h : Tallied Matching Ahead m dictionary) :
    Tallied Matching Ahead (m.step dictionary).2.1 (m.step dictionary).2.2 := by
  unfold step
  by_cases poisoned : m.isPoisoned = true
  · rw [if_pos poisoned]
    exact h
  have level : Matching m.progress dictionary := h.resolve_right fun ahead => poisoned ahead.1
  rw [if_neg poisoned]
  split
  · exact .inl level
  · rename_i first rest schedule popped
    have outcome := writeGroup_tallies tallies first rest { m with schedule } level
    split <;> rename_i result <;> rw [result] at outcome
    · rcases outcome with level | ⟨⟨e, failed⟩, -⟩
      · exact .inl level
      · cases failed
    · split <;> exact outcome.imp id fun ahead => ⟨rfl, ahead.2⟩

omit [Dictionary D] [PostingSink S] in
theorem abort_tallies (m : Merge C S) (dictionary : D) (h : Tallied Matching Ahead m dictionary) :
    Tallied Matching Ahead (abort m).2 dictionary :=
  h.imp id fun ahead => ⟨rfl, ahead.2⟩

omit [Dictionary D] [PostingSink S] in
/-- A merge that was just started has no progress. -/
theorem progress_start {F : Type} [RunOpener F C] (count : Nat) (opener : F) (sink : S)
    (interval : Nat) : (start (C := C) count opener sink interval).2.2.progress = ⟨0, 0⟩ := by
  unfold start
  split
  · rfl
  · rfl

end Merge

section Supplied

variable {W : Type} [ByteSink W]

/-- The second sink is the first one after deliveries that all succeeded. -/
def Supplied : W → W → Prop :=
  Relation.ReflTransGen fun w w' => ∃ chunk, ByteSink.write chunk w = (.ok (), w')

theorem Supplied.atomic [FaithfulSink W] {w w' : W} (h : Supplied w w') (atomic : Atomic w) :
    Atomic w' := by
  induction h with
  | refl => exact atomic
  | tail _ next ih =>
    obtain ⟨chunk, wrote⟩ := next
    have still := ih.write chunk
    rwa [wrote] at still

theorem Supplied.neverFails {w w' : W} (h : Supplied w w') (never : NeverFails w) :
    NeverFails w' := by
  induction h with
  | refl => exact never
  | tail _ next ih =>
    obtain ⟨chunk, wrote⟩ := next
    obtain ⟨v, delivered, still⟩ := ih.write chunk
    cases wrote.symm.trans delivered
    exact still

end Supplied

namespace LexiconWriter

open Merge

variable {W : Type} [ByteSink W] [FaithfulSink W] {layout : Layout} {sink : W}
  {w : LexiconWriter W} {entries : List LexiconEntry} {e : LexiconEntry}

/-- The writer takes entries, and has counted and written these behind its header. -/
structure Lists (layout : Layout) (w : LexiconWriter W) (entries : List LexiconEntry) : Prop where
  isOpen : w.isFinished = false
  count_eq : w.count = entries.length
  written_eq : w.written = LexiconFormat.header layout ++ entries.flatMap LexiconEntry.encode

theorem lists_start (capacity : Nat) (empty : FaithfulSink.content sink = []) :
    (start capacity sink layout).Lists layout [] :=
  ⟨rfl, rfl, written_start capacity empty⟩

theorem Lists.stage (h : w.Lists layout entries) (e : LexiconEntry) :
    (w.stage e).Lists layout (entries ++ [e]) := by
  refine ⟨h.isOpen, ?_, written_stage_eq h.written_eq e⟩
  show w.count + 1 = _
  rw [List.length_append, List.length_singleton, h.count_eq]

/-- The last delivery failed. All before it succeeded, and what it was given is still staged. -/
def IsStuck (sink : W) (w : LexiconWriter W) : Prop :=
  ∃ before fault, Supplied sink before ∧ ByteSink.write w.staged before = (.error fault, w.sink)

/-- The writer has the entries of a progress, and its sink took all that it was given. -/
def IsLevel (layout : Layout) (sink : W) (progress : Progress) (w : LexiconWriter W) : Prop :=
  ∃ entries, w.Lists layout entries ∧ progress = .ofEntries entries ∧ Supplied sink w.sink

/-- The writer has one entry more than a progress, and it could not be delivered. -/
def IsAhead (layout : Layout) (sink : W) (progress : Progress) (w : LexiconWriter W) : Prop :=
  ∃ entries e, w.Lists layout (entries ++ [e]) ∧ progress = .ofEntries entries ∧ w.IsStuck sink

/-- Delivering what is staged succeeds, or the writer is stuck. It has the same entries either
way. -/
theorem Lists.flush (h : w.Lists layout entries) (atomic : Atomic sink)
    (supplied : Supplied sink w.sink) :
    (∃ w', LexiconWriter.flush w = (.ok (), w') ∧ w'.Lists layout entries ∧
      Supplied sink w'.sink) ∨
    ∃ error w', LexiconWriter.flush w = (.error error, w') ∧ w'.Lists layout entries ∧
      w'.IsStuck sink := by
  obtain ⟨after, wrote, flushed⟩ | ⟨fault, after, failed, flushed⟩ := flush_cases w
  · refine .inl ⟨_, flushed, ⟨h.isOpen, h.count_eq, ?_⟩, supplied.tail ⟨w.staged, wrote⟩⟩
    rw [written_delivered wrote, h.written_eq]
  · refine .inr ⟨_, _, flushed, ⟨h.isOpen, h.count_eq, ?_⟩, w.sink, fault, supplied, failed⟩
    have kept := (supplied.atomic atomic).content_eq failed
    rw [← h.written_eq, written, written, kept]

/-- An entry is taken, or it is refused and the writer is as it was, or it is taken but cannot be
delivered. -/
theorem Lists.add (h : w.Lists layout entries) (atomic : Atomic sink)
    (supplied : Supplied sink w.sink) (e : LexiconEntry) :
    (∃ w', LexiconWriter.add e w = (.ok (), w') ∧ w'.Lists layout (entries ++ [e]) ∧
      Supplied sink w'.sink) ∨
    (∃ error, LexiconWriter.add e w = (.error error, w)) ∨
    ∃ error w', LexiconWriter.add e w = (.error error, w') ∧ w'.Lists layout (entries ++ [e]) ∧
      w'.IsStuck sink := by
  cases checked : w.check e.term e.statistics with
  | error error =>
    refine .inr (.inl ⟨error, ?_⟩)
    unfold LexiconWriter.add
    rw [checked]
  | ok placed =>
    have staged := h.stage e
    rw [add_of_check checked]
    by_cases full : w.capacity ≤ (w.stage e).staged.size
    · rw [if_pos full]
      exact (staged.flush atomic supplied).imp id .inr
    · rw [if_neg full]
      exact .inl ⟨w.stage e, rfl, staged, supplied⟩

/-- A lexicon writer is level where it takes or refuses an entry, and ahead by the entry that it
could not deliver. -/
theorem tallies (layout : Layout) (atomic : Atomic sink) :
    Tallies (D := LexiconWriter W) (IsLevel layout sink) (IsAhead layout sink) where
  added := by
    rintro progress e w w' ⟨entries, lists, rfl, supplied⟩ added
    obtain ⟨after, taken, lists, supplied⟩ | ⟨error, refused⟩ | ⟨error, after, failed, -⟩ :=
      lists.add atomic supplied e
    · cases taken.symm.trans added
      exact ⟨entries ++ [e], lists, (Progress.ofEntries_concat entries e).symm, supplied⟩
    · cases refused.symm.trans added
    · cases failed.symm.trans added
  failed := by
    rintro progress e w w' error ⟨entries, lists, rfl, supplied⟩ failed
    obtain ⟨after, taken, -⟩ | ⟨error, refused⟩ | ⟨error, after, stopped, more, stuck⟩ :=
      lists.add atomic supplied e
    · cases taken.symm.trans failed
    · cases refused.symm.trans failed
      exact .inl ⟨entries, lists, rfl, supplied⟩
    · cases stopped.symm.trans failed
      exact .inr ⟨entries, e, more, rfl, stuck⟩

/-- A lexicon that could be finished has the entries that were counted. -/
theorem Lists.finish (h : w.Lists layout entries) {count : Nat} {closed : LexiconWriter W}
    (finished : LexiconWriter.finish w = (.ok count, closed)) :
    count = w.count ∧ FaithfulSink.content closed.sink = LexiconFormat.header layout ++
      (entries.flatMap LexiconEntry.encode ++ LexiconFormat.trailer entries.length) := by
  obtain ⟨counted, content⟩ := content_of_finish h.isOpen finished
  refine ⟨counted, ?_⟩
  rw [content, h.written_eq, h.count_eq, List.append_assoc]

end LexiconWriter

section Tally

open Merge LexiconWriter

variable {F C S W : Type} [RunCursor C] [RunOpener F C] [PostingSink S] [ByteSink W]
  [FaithfulSink W] {sink : W}

/-- Whatever is merged, and whichever deliveries of the lexicon fail, after any calls the lexicon
has as many entries as the merge has counted, as long as all deliveries succeeded. If the last one
failed, the lexicon has counted one entry more, which is still staged, and the merge goes no
further. The progress is that of the entries without this one. A lexicon that can be finished
afterwards has all entries that it counted. -/
theorem tally_of_perform (atomic : Atomic sink) (empty : FaithfulSink.content sink = [])
    (layout : Layout) (capacity count interval : Nat) (opener : F) (lists : S)
    (calls : List Call) :
    let begun : Merge C S := (start count opener lists interval).2.2
    let reached := perform calls begun (LexiconWriter.start capacity sink layout)
    let m := reached.1
    let w := reached.2
    ∃ entries : List LexiconEntry,
      w.count = entries.length ∧ m.progress = .ofEntries (entries.take m.progress.terms) ∧
      (∀ counted closed, finish w = (.ok counted, closed) → counted = w.count ∧
        FaithfulSink.content closed.sink = LexiconFormat.header layout ++
          (entries.flatMap LexiconEntry.encode ++ LexiconFormat.trailer entries.length)) ∧
      (w.count = m.progress.terms ∧ Supplied sink w.sink ∨
        w.count = m.progress.terms + 1 ∧ m.isPoisoned = true ∧ w.IsStuck sink) := by
  intro begun reached m w
  have level : Tallied (IsLevel layout sink) (IsAhead layout sink) m w := by
    apply perform_keeps (step_tallies (tallies layout atomic)) abort_tallies
    exact .inl ⟨[], lists_start capacity empty, progress_start count opener lists interval, .refl⟩
  obtain ⟨entries, lists, progress, supplied⟩ | ⟨poisoned, entries, e, lists, progress, stuck⟩ :=
    level
  · have terms : m.progress.terms = entries.length := congrArg Progress.terms progress
    refine ⟨entries, lists.count_eq, ?_, fun _ _ => lists.finish, .inl ⟨?_, supplied⟩⟩
    · rw [terms, List.take_length, progress]
    · rw [lists.count_eq, terms]
  · have terms : m.progress.terms = entries.length := congrArg Progress.terms progress
    refine ⟨entries ++ [e], lists.count_eq, ?_, fun _ _ => lists.finish, .inr ⟨?_, poisoned, stuck⟩⟩
    · rw [terms, List.take_left, progress]
    · rw [lists.count_eq, terms, List.length_append, List.length_singleton]

/-- A device whose second delivery fails. -/
def stallingSink : Recorder := .start (· == 1) fun _ => false

/-- The merge of two runs through a lexicon that delivers each entry, after three calls. -/
def stalledMerge : Merge MemoryCursor ListSink × LexiconWriter Recorder :=
  perform [.step, .step, .step] (start 2 overlappingRuns ListSink.empty 0).2.2
    (LexiconWriter.start 1 stallingSink ⟨0, false⟩)

/-- The merge has counted one term, and the lexicon is stuck with the other. -/
theorem tally_of_perform_stalled : ∃ entries : List LexiconEntry,
    entries.length = 2 ∧ stalledMerge.1.progress = .ofEntries (entries.take 1) ∧
      stalledMerge.1.isPoisoned = true ∧ stalledMerge.2.IsStuck stallingSink := by
  have terms : stalledMerge.1.progress.terms = 1 := by decide +kernel
  have count : stalledMerge.2.count = 2 := by decide +kernel
  obtain ⟨entries, counted, progress, -, tally⟩ := tally_of_perform (C := MemoryCursor)
    (atomic_recorder stallingSink) rfl ⟨0, false⟩ 1 2 0 overlappingRuns ListSink.empty
    [.step, .step, .step]
  obtain ⟨same, -⟩ | ⟨-, poisoned, stuck⟩ := tally
  · cases terms.symm.trans (same.symm.trans count)
  · refine ⟨entries, counted.symm.trans count, ?_, poisoned, stuck⟩
    rw [← terms]
    exact progress

/-- The counts differ, and the lexicon can be finished with the entry that was not counted. -/
theorem counts_of_stalledMerge : stalledMerge.1.progress = ⟨1, 3⟩ ∧ stalledMerge.2.count = 2 ∧
    (LexiconWriter.finish stalledMerge.2).1 = .ok 2 := by
  refine ⟨?_, ?_, ?_⟩ <;> decide +kernel

end Tally

end IndexMerge
