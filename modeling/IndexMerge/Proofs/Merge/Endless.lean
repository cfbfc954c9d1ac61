import IndexMerge.Proofs.InvertedFile.Drain
import IndexMerge.Proofs.Merge.Calls
import IndexMerge.Proofs.Schedule.Endless

/-!
# Merges with a cursor without an end

Every step of a merge that succeeds reads the postings of its group up to their end and brings the
cursors back. So a merge of runs with one whose cursor never comes to an ordinary end fails, sooner
or later (`mergeRuns_of_endless`).
-/

namespace IndexMerge

open PostingSource

variable {F C S D : Type} [RunCursor C] {On Behind : Lease C → Prop}

namespace Merge

variable [PostingSink S]

/-- If a list is stored, each cursor of its group has given all its postings. -/
theorem exists_of_store (exhausts : Exhausts S) {term : Term} {leases stored : List (Lease C)}
    {sink sink' : S} {pointer : BitPosition}
    (written : store term leases sink = (.ok pointer, stored, sink')) {lease : Lease C}
    (member : lease ∈ leases) :
    ∃ postings, ∃ after ∈ stored, Yields lease.openPostings postings after := by
  unfold store at written
  dsimp only at written
  split at written
  · cases written
  · rename_i drained
    split at written <;> cases written
    obtain ⟨postings, yields⟩ := exhausts drained
    obtain ⟨lists, each⟩ := PostingSequence.yieldsEach_of_ofList yields.of_counted
    exact each.exists_of_mem (List.mem_map_of_mem member)

variable [Dictionary D] {m m' : Merge C S} {dictionary dictionary' : D} {merged : MergedTerm}

omit [PostingSink S] in
theorem holds_enter (endless : Lease.Endless On Behind) {term : Term} {runs : List Nat}
    {statistics : TermStatistics} {pointer : BitPosition} {postings : Nat} {leases : List (Lease C)}
    (some : m.schedule.Holds On ∨ ∃ lease ∈ leases, Behind lease)
    (entered : enter term runs statistics pointer postings leases m dictionary =
      (.ok merged, m', dictionary')) : m'.schedule.Holds On := by
  unfold enter at entered
  split at entered
  · cases entered
  · dsimp only at entered
    split at entered
    · cases entered
    · split at entered <;> rename_i requeued <;> cases entered
      refine Schedule.holds_requeueAll endless (some.imp_left fun holds => ?_) requeued
      exact holds.of_heap (heap_count ..)

theorem holds_writeGroup (endless : Lease.Endless On Behind) (exhausts : Exhausts S)
    {first : Lease C} {rest : List (Lease C)}
    (some : m.schedule.Holds On ∨ ∃ lease ∈ first :: rest, On lease)
    (written : writeGroup first rest m dictionary = (.ok merged, m', dictionary')) :
    m'.schedule.Holds On := by
  unfold writeGroup at written
  dsimp only at written
  split at written
  · cases written
  · split at written
    · cases written
    · split at written
      · cases written
      · rename_i stored
        refine holds_enter endless ?_ written
        refine some.imp_right ?_
        rintro ⟨lease, member, on⟩
        obtain ⟨postings, after, later, yields⟩ := exists_of_store exhausts stored member
        exact ⟨after, later, endless.yields on yields⟩

/-- A step that succeeds leaves a cursor without an end scheduled. -/
theorem holds_step (endless : Lease.Endless On Behind) (exhausts : Exhausts S)
    (holds : m.schedule.Holds On) (stepped : m.step dictionary = (.ok merged, m', dictionary')) :
    m'.schedule.Holds On := by
  unfold step at stepped
  split at stepped
  · cases stepped
  · split at stepped
    · cases stepped
    · rename_i popped
      split at stepped
      · rename_i written
        cases stepped
        exact holds_writeGroup endless exhausts (holds.popGroup popped) written
      · split at stepped <;> cases stepped

/-- As long as a cursor without an end is scheduled, not all terms are written. -/
theorem rest_of_holds (endless : Lease.Endless On Behind) (exhausts : Exhausts S)
    (holds : m.schedule.Holds On) (dictionary : D) (terms : Array MergedTerm) :
    ∃ e, (m.rest dictionary terms).1 = .error e := by
  fun_induction rest m dictionary terms with
  | case1 m dictionary terms done =>
    have waiting := Schedule.not_isEmpty_of_holds holds
    simp [isDone, waiting] at done
  | case2 m dictionary terms running merged m' dictionary' stepped ih =>
    exact ih (holds_step endless exhausts holds stepped)
  | case3 m dictionary terms running e m' dictionary' failed => exact ⟨e, rfl⟩

end Merge

/-- A merge of runs fails if the cursor of one of them never comes to an ordinary end. -/
theorem mergeRuns_of_endless [PostingSink S] [Dictionary D] [RunOpener F C]
    (endless : Lease.Endless On Behind) (exhausts : Exhausts S) {opener : F}
    {count position : Nat} (inside : position < count)
    (behind : ∀ cursor,
      (RunOpener.openRun position (Schedule.openerBefore opener position)).1 = .ok cursor →
      Behind ⟨position, cursor⟩) (sink : S) (dictionary : D) :
    ∃ e, (mergeRuns count opener sink dictionary).1 = .error e := by
  unfold mergeRuns Merge.start
  rcases opened : Schedule.start count opener with ⟨e | _, opener', schedule⟩
  · exact ⟨e, rfl⟩
  dsimp only
  have holds : schedule.Holds On :=
    Schedule.holds_openRuns endless behind count 0 (.inr ⟨Nat.zero_le _, by omega⟩) opened
  obtain ⟨e, failed⟩ := Merge.rest_of_holds endless exhausts
    (m := ⟨schedule.tell (.mergeStarted count schedule.size), sink, ⟨0, 0⟩, 0, false⟩) holds
    dictionary #[]
  split <;> rename_i result <;> rw [result] at failed
  · exact ⟨_, rfl⟩
  · cases failed

end IndexMerge
