import IndexMerge.Command.Merge
import IndexMerge.Proofs.Lexicon.Unfinished
import IndexMerge.Proofs.Merge.Files
import IndexMerge.Proofs.Merge.Tally

/-!
# Merges that do not finish their lexicon

A step of a merge adds an entry to its dictionary or leaves it as it is, and if adding fails, the
merge goes no further (`step_breaks`). So what a merge delivers to a lexicon is a part of a header
and entries until the lexicon is finished, and a reader does not take it for a whole lexicon
(`LexiconReader.detects_cuts`).
-/

namespace IndexMerge

namespace Merge

variable {C S D : Type} [RunCursor C] [Dictionary D] {Intact Broken : D → Prop}

/-- Adding an entry keeps a dictionary intact, or it fails and breaks it. -/
def Breakable (Intact Broken : D → Prop) : Prop :=
  ∀ (e : LexiconEntry) (dictionary : D), Intact dictionary →
    Intact (Dictionary.add e dictionary).2 ∨
      (∃ error, (Dictionary.add e dictionary).1 = .error error) ∧
        Broken (Dictionary.add e dictionary).2

omit [RunCursor C] in
/-- An intact dictionary matches any progress. -/
theorem Breakable.tallies (breakable : Breakable Intact Broken) :
    Tallies (fun _ => Intact) fun _ => Broken where
  added := by
    intro progress e d d' intact added
    have after := breakable e d intact
    rw [added] at after
    rcases after with intact | ⟨⟨error, failed⟩, -⟩
    · exact intact
    · cases failed
  failed := by
    intro progress e d d' error intact failed
    have after := breakable e d intact
    rw [failed] at after
    exact after.imp id And.right

/-- The dictionary of a merge is intact, or the merge goes no further. -/
def IntactUnlessSpent (Intact Broken : D → Prop) (m : Merge C S) (dictionary : D) : Prop :=
  Intact dictionary ∨ m.isPoisoned = true ∧ Broken dictionary

theorem step_breaks [PostingSink S] (breakable : Breakable Intact Broken) (m : Merge C S)
    (dictionary : D) (h : IntactUnlessSpent Intact Broken m dictionary) :
    IntactUnlessSpent Intact Broken (m.step dictionary).2.1 (m.step dictionary).2.2 :=
  step_tallies breakable.tallies m dictionary h

omit [Dictionary D] in
theorem abort_breaks (m : Merge C S) (dictionary : D)
    (h : IntactUnlessSpent Intact Broken m dictionary) :
    IntactUnlessSpent Intact Broken (abort m).2 dictionary :=
  h.imp id fun broken => ⟨rfl, broken.2⟩

end Merge

namespace LexiconWriter

open Merge LexiconReader

variable {C S W : Type} [RunCursor C] [PostingSink S] [ByteSink W] [FaithfulSink W]
  {layout : Layout}

/-- What was delivered to a lexicon is a part of its header and entries. -/
abbrev Parted (layout : Layout) (w : LexiconWriter W) : Prop :=
  IsCut layout (FaithfulSink.content w.sink)

theorem breakable : Breakable (D := LexiconWriter W) (Unfinished layout) (Parted layout) :=
  fun e _ h => add_unfinished e h

omit [PostingSink S] in
theorem parted_of_intact {m : Merge C S} {w : LexiconWriter W}
    (h : IntactUnlessSpent (Unfinished layout) (Parted layout) m w) : Parted layout w := by
  rcases h with unfinished | ⟨-, parted⟩
  · exact unfinished.isCut
  · exact parted

omit [FaithfulSink W] in
/-- A writer that was asked to finish takes no more, whether or not it succeeded. -/
theorem isFinished_finish (w : LexiconWriter W) : (finish w).2.isFinished = true := by
  unfold finish
  by_cases finished : w.isFinished = true
  · rw [if_pos finished]
    exact finished
  rw [if_neg finished]
  unfold flush
  dsimp only
  split <;> rename_i flushed <;> split at flushed <;> cases flushed
  · rfl
  · split <;> rfl

end LexiconWriter

/-- A file keeps nothing of a chunk that it refuses. -/
theorem atomic_file (file : OutputFile) : Atomic file := by
  intro chunks chunk e failed
  generalize delivered chunks file = file at *
  simp only [ByteSink.write] at failed ⊢
  split at failed
  · rename_i isSealed
    rw [if_pos isSealed]
  · cases failed

section Unfinished

open LexiconWriter Merge LexiconReader

variable {F C S W : Type} [RunCursor C] [RunOpener F C] [PostingSink S] [ByteSink W]
  [FaithfulSink W] {sink : W} {layout : Layout}

/-- What was delivered to a lexicon after any calls of a merge is not read to an end. -/
theorem neverEnds_of_perform (appendOnly : AppendOnly sink) (empty : FaithfulSink.content sink = [])
    (capacity : Nat) (calls : List Call) (m : Merge C S) :
    NeverEnds (FaithfulSink.content
      (perform calls m (LexiconWriter.start capacity sink layout)).2.sink) := by
  have kept := perform_keeps (step_breaks breakable) abort_breaks calls m
    (LexiconWriter.start capacity sink layout) (.inl (unfinished_start capacity appendOnly empty))
  exact (parted_of_intact kept).neverEnds

/-- What was delivered to a lexicon by a merge of runs is not read to an end before the lexicon is
finished, however the merge ends. -/
theorem neverEnds_of_mergeRuns (appendOnly : AppendOnly sink)
    (empty : FaithfulSink.content sink = []) (capacity count : Nat) (opener : F) (lists : S) :
    NeverEnds (FaithfulSink.content
      (mergeRuns count opener lists (LexiconWriter.start capacity sink layout)).2.2.sink) := by
  have unfinished : (LexiconWriter.start capacity sink layout).Unfinished layout :=
    unfinished_start capacity appendOnly empty
  unfold mergeRuns
  rcases Merge.start count opener lists 0 with ⟨e | _, _, m⟩
  · exact unfinished.isCut.neverEnds
  have kept := rest_keeps (step_breaks breakable) m _ #[] (.inl unfinished)
  dsimp only
  split <;> rename_i result <;> rw [result] at kept <;> exact (parted_of_intact kept).neverEnds

/-- The merge command comes to finish the lexicon, or leaves one that is not read to an end. -/
theorem finished_or_neverEnds (files : RunFiles) (options : MergeOptions)
    (lists : PostingWriter OutputFile) (capacity : Nat) (layout : Layout) :
    let lexicon := (Command.MergeRequest.run files options lists
      (.start capacity .empty layout)).2.2
    lexicon.isFinished = true ∨ NeverEnds lexicon.sink.bytes.toList := by
  have begun : (LexiconWriter.start capacity OutputFile.empty layout).Unfinished layout :=
    unfinished_start capacity (atomic_file .empty).appendOnly rfl
  unfold Command.MergeRequest.run
  rcases Merge.start files.paths.size files lists options.progressInterval with ⟨e | _, _, m⟩
  · exact .inr begun.isCut.neverEnds
  have kept := rest_keeps (step_breaks breakable) m _ #[] (.inl begun)
  dsimp only
  split <;> rename_i rested <;> rw [rested] at kept
  · exact .inr (parted_of_intact kept).neverEnds
  · rename_i lexicon
    split
    · exact .inr (parted_of_intact kept).neverEnds
    · have finished := isFinished_finish lexicon
      split <;> rename_i result <;> rw [result] at finished <;> exact .inl finished

/-- A lexicon that was finished and then cut gives the entries whose bytes are there, up to the
first one with a place outside of a byte, and then a failure, unless already the header is refused.
And what is delivered to a lexicon before it is finished is not read to an end: after any calls of a
merge, after a merge of runs however it ends, and after the merge command unless it came to finish
the lexicon. This holds for any sources of the runs, and whatever part of a chunk a failing delivery
leaves. -/
theorem LexiconReader.detects_cuts (appendOnly : AppendOnly sink)
    (empty : FaithfulSink.content sink = []) (layout : Layout) (capacity : Nat) :
    (NeverFails sink → ∀ entries : List LexiconEntry, (∀ e ∈ entries, e.Narrow) →
      let taken := accepted layout entries
      ∃ closed,
        finish (offered entries (.start capacity sink layout)) = (.ok taken.length, closed) ∧
        ∀ source, source.bytes <+: FaithfulSink.content closed.sink →
          source.bytes ≠ FaithfulSink.content closed.sink →
          ∀ r, LexiconReader.start source = .ok r →
          ∃ k e, k ≤ taken.length ∧ r.Breaks (taken.take k) e ∧
            ∀ j ≤ taken.length,
              (LexiconFormat.header layout ++ (taken.take j).flatMap LexiconEntry.encode <+:
                source.bytes ∧ ∀ e ∈ taken.take j, e.IsPlaced) ↔ j ≤ k) ∧
    (∀ {F C S : Type} [RunCursor C] [RunOpener F C] [PostingSink S],
      (∀ (calls : List Call) (m : Merge C S), NeverEnds (FaithfulSink.content
        (perform calls m (LexiconWriter.start capacity sink layout)).2.sink)) ∧
      ∀ (count : Nat) (opener : F) (lists : S), NeverEnds (FaithfulSink.content
        (mergeRuns count opener lists (LexiconWriter.start capacity sink layout)).2.2.sink)) ∧
    ∀ (files : RunFiles) (options : MergeOptions) (lists : PostingWriter OutputFile),
      let lexicon := (Command.MergeRequest.run files options lists
        (.start capacity .empty layout)).2.2
      lexicon.isFinished = false → NeverEnds lexicon.sink.bytes.toList := by
  refine ⟨?_, fun {_ _ _} _ _ _ => ⟨?_, ?_⟩, ?_⟩
  · intro neverFails entries narrow taken
    exact breaks_of_offered ⟨neverFails, empty⟩ layout capacity entries narrow
  · exact neverEnds_of_perform appendOnly empty capacity
  · exact neverEnds_of_mergeRuns appendOnly empty capacity
  · intro files options lists lexicon unfinished
    refine (finished_or_neverEnds files options lists capacity layout).resolve_left ?_
    exact fun finished => Bool.false_ne_true (unfinished.symm.trans finished)

/-- Cut anywhere, the lexicon of three entries gives some of them and fails, and so does what a
merge of a file that was cut off delivers to a lexicon. -/
theorem LexiconReader.detects_cuts_fiveEntries :
    (∃ closed, finish (offered fiveEntries (.start 1 (#[] : Array UInt8) ⟨1, true⟩)) =
        (.ok 3, closed) ∧
      ∀ source, source.bytes <+: closed.sink.toList → source.bytes ≠ closed.sink.toList →
        ∀ r, LexiconReader.start source = .ok r → ∃ k e, k ≤ 3 ∧
          r.Breaks ([fiveEntries[0], fiveEntries[1], fiveEntries[4]].take k) e) ∧
    NeverEnds (mergeRuns 2 (RunFiles.start damagedFiles #["a", "b"] true) ListSink.empty
      (LexiconWriter.start 1 (#[] : Array UInt8) ⟨0, false⟩)).2.2.sink.toList := by
  have appendOnly := fresh_array.neverFails.atomic.appendOnly
  constructor
  · obtain ⟨closed, finished, cuts⟩ := (detects_cuts appendOnly rfl ⟨1, true⟩ 1).1
      fresh_array.neverFails fiveEntries
      (by simp [fiveEntries, LexiconEntry.Narrow, UInt64.size, UInt8.size])
    rw [accepted_fiveEntries] at finished cuts
    refine ⟨closed, finished, fun source part proper r started => ?_⟩
    obtain ⟨k, e, le, breaks, -⟩ := cuts source part proper r started
    exact ⟨k, e, le, breaks⟩
  · exact (detects_cuts appendOnly rfl ⟨0, false⟩ 1).2.1.2 2 _ _

/-- An entry whose place is outside of a byte. -/
def misplacedEntry : LexiconEntry := ⟨[], ⟨1, 1, [], some 0, some ⟨0, 8⟩⟩⟩

/-- A writer takes the misplaced entry, but of its lexicon without the last byte, which has all
bytes of the entry, a reader does not give it. -/
theorem LexiconReader.refuses_misplacedEntry :
    ∃ w closed, add misplacedEntry (.start 1 (#[] : Array UInt8) ⟨0, false⟩) = (.ok (), w) ∧
      finish w = (.ok 1, closed) ∧
      let cut := closed.sink.toList.dropLast
      cut <+: closed.sink.toList ∧ cut ≠ closed.sink.toList ∧
        LexiconFormat.header ⟨0, false⟩ ++ misplacedEntry.encode <+: cut ∧
        ∃ r, LexiconReader.start (.ofList cut) = .ok r ∧ ∀ e, ¬r.Breaks [misplacedEntry] e := by
  refine ⟨_, _, rfl, rfl, by decide, by decide, by decide, _, rfl, ?_⟩
  intro e breaks
  cases breaks 0

end Unfinished

end IndexMerge
