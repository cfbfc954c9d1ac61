import IndexMerge.InvertedFile.Writer
import IndexMerge.Proofs.Bits.Writer
import IndexMerge.Proofs.Merge.Custody
import IndexMerge.Proofs.Merge.Memory
import IndexMerge.Run.Faulty

/-!
# Ending a merge

An end first closes the cursors that the merge still holds, each of them whichever fails, and then
the sink. The sink is closed only if all cursors could be closed (`finish_of_perform`): behind a
failure it stays open, with what it has not delivered (`sink_behind_failed_release`).
-/

namespace IndexMerge

variable {F C S D : Type} [RunCursor C]

theorem Lease.closeFault?_eq_none_iff {lease : Lease C} :
    lease.closeFault? = none ↔ (RunCursor.close lease.cursor).1 = .ok () := by
  unfold closeFault?
  cases (RunCursor.close lease.cursor).1 with
  | ok done => simp
  | error e => simp

namespace Merge

section Finish

variable [PostingSink S]

/-- An end succeeds just if nothing fails to close. -/
theorem isOk_finish_iff (m : Merge C S) : (finish m).1.isOk = true ↔
    (∀ lease ∈ m.held, (RunCursor.close lease.cursor).1 = .ok ()) ∧
      (PostingSink.close m.sink).1 = .ok () := by
  have sound : m.held.findSome? Lease.closeFault? = none ↔
      ∀ lease ∈ m.held, (RunCursor.close lease.cursor).1 = .ok () := by
    simp only [List.findSome?_eq_none_iff, Lease.closeFault?_eq_none_iff]
  rw [← sound]
  cases fault : m.held.findSome? Lease.closeFault? with
  | some e =>
    rw [(finish_of_fault fault).1]
    simp [Except.isOk, Except.toBool]
  | none =>
    rw [(finish_of_sound fault).1]
    rcases PostingSink.close m.sink with ⟨e | done, sink⟩
    · simp [Except.isOk, Except.toBool, Except.map]
    · simp [Except.isOk, Except.toBool, Except.map]

end Finish

variable [PostingSink S] [Dictionary D] [RunOpener F C]

/-- A merge is ended after any calls, whichever cursors cannot be closed. All cursors that it still
holds are closed, so that each cursor it was ever given was closed once. If one of them cannot be
closed, the first such failure is given, and the sink is left as it is. Otherwise the sink is
closed, and the end comes to what this comes to. It succeeds just if nothing fails to close. A merge
that is done, or that was given up because of a failure or on request, holds no cursors, so its sink
is closed in any case. -/
theorem finish_of_perform (count : Nat) (opener : F) (sink : S) (interval : Nat)
    (calls : List Call) (dictionary : D) :
    let begun : Merge C S := (start count opener sink interval).2.2
    let m := (perform calls begun dictionary).1
    let result := (finish m).1
    let ended := (finish m).2
    ended.schedule.heap.toList = [] ∧
      ended.schedule.ledger.left = m.schedule.ledger.left ++ m.held.map Lease.closed ∧
      ended.schedule.journal.closed = m.schedule.journal.closed ++ m.held.map Lease.position ∧
      ended.schedule.journal.closed.Nodup ∧
      ended.schedule.journal.closed.Perm m.schedule.journal.opened ∧
      (match m.held.findSome? Lease.closeFault? with
        | some e => result = .error e ∧ ended.sink = m.sink
        | none => result = (PostingSink.close m.sink).1.map (fun _ => m.progress) ∧
          ended.sink = (PostingSink.close m.sink).2) ∧
      (result.isOk = true ↔ (∀ lease ∈ m.held, (RunCursor.close lease.cursor).1 = .ok ()) ∧
        (PostingSink.close m.sink).1 = .ok ()) ∧
      (m.isPoisoned = true ∨ m.isDone = true →
        m.held = [] ∧ ended.sink = (PostingSink.close m.sink).2) := by
  intro begun m result ended
  have custody := custody_start (C := C) count opener sink interval
  obtain ⟨kept, spent⟩ := custody_perform (m := begun) calls dictionary ⟨custody.1, custody.2.1⟩
  have all := custody_finish kept
  have left : ended.schedule.ledger.left = _ := (schedule_finish m).2.2
  have opened : m.schedule.journal.opened = _ := Ledger.opened_journal m.schedule.ledger
  have before : m.schedule.journal.closed = _ := Ledger.closed_journal m.schedule.ledger
  have closed : ended.schedule.journal.closed = _ := Ledger.closed_journal ended.schedule.ledger
  have empty : m.isPoisoned = true ∨ m.isDone = true → m.held = [] := by
    rintro (poisoned | done)
    · exact spent poisoned
    · exact Schedule.toList_of_isEmpty (Bool.and_eq_true_iff.mp done).2
  refine ⟨all.unscheduled, left, ?_, ?_, ?_, ?_, isOk_finish_iff m, fun gone => ⟨empty gone, ?_⟩⟩
  · rw [closed, left, before, List.map_append, List.map_map]
    rfl
  · rw [closed]
    exact all.positions.nodup_iff.mpr (Schedule.nodup_givenBefore _ _)
  · rw [closed, opened, kept.given_eq]
    exact all.positions
  · cases fault : m.held.findSome? Lease.closeFault? with
    | some e => exact finish_of_fault fault
    | none => exact finish_of_sound fault
  · have sound : m.held.findSome? Lease.closeFault? = none := by
      rw [empty gone, List.findSome?_nil]
    exact (finish_of_sound sound).2

/-- An opener of runs of which the cursor at a position cannot be closed. -/
def stuckAt (position : Nat) (runs : Array Run) : FaultyOpener (Array Run) :=
  ⟨runs, fun i => { FaultPlan.none with failsClose := i == position }⟩

/-- A merge is ended before its first step. The cursor that is closed first cannot be closed; the
other one is closed all the same. -/
theorem finish_of_perform_stuck :
    let m : Merge (FaultyCursor MemoryCursor) ListSink :=
      (start 2 (stuckAt 0 overlappingRuns) ListSink.empty 0).2.2
    (finish m).1 = .error (.io "run close" .deviceLost) ∧
      (finish m).2.schedule.journal.closed = [0, 1] := by
  intro m
  have held : m.held.map Lease.position = [0, 1] := by decide +kernel
  have closed : m.schedule.journal.closed = [] := by decide +kernel
  have fault : m.held.findSome? Lease.closeFault? = some (.io "run close" .deviceLost) := by
    decide +kernel
  obtain ⟨-, -, all, -, -, came, -, -⟩ := finish_of_perform (C := FaultyCursor MemoryCursor) 2
    (stuckAt 0 overlappingRuns) ListSink.empty 0 [] (#[] : Array LexiconEntry)
  rw [perform_nil] at all came
  refine ⟨?_, ?_⟩
  · rw [fault] at came
    exact came.1
  · rw [held, closed] at all
    exact all

/-- A merge of one run of two terms into an inverted file, after its first step. The cursor of the
run cannot be closed. -/
def stuckMerge : Merge (FaultyCursor MemoryCursor) (PostingWriter Recorder) :=
  let layout : Layout := ⟨0, false⟩
  let entry (term : Term) (docId : UInt32) : RunEntry :=
    ⟨term, .ofPostings layout [⟨docId, 1, [], []⟩], [⟨docId, 1, [], []⟩]⟩
  let run : Run := ⟨0, layout, #[entry [97] 1, entry [98] 2]⟩
  let sink := PostingWriter.start 65536 (Recorder.start (fun _ => false) fun _ => false) layout
  (perform [.step] (start 1 (stuckAt 0 #[run]) sink 0).2.2 (#[] : Array LexiconEntry)).1

/-- The list of the first term was written. The end fails and leaves the sink open: nothing is
delivered, and it is not sealed, although it could have been closed. -/
theorem sink_behind_failed_release :
    stuckMerge.sink.bits.written = [false, true, false, true] ∧
      (finish stuckMerge).1 = .error (.io "run close" .deviceLost) ∧
      (finish stuckMerge).2.sink.isClosed = false ∧
      (finish stuckMerge).2.sink.bits.sink.bytes = #[] ∧
      (finish stuckMerge).2.sink.bits.sink.seals = 0 ∧
      (PostingSink.close stuckMerge.sink).1 = .ok () ∧
      (PostingSink.close stuckMerge.sink).2.bits.sink.bytes = #[0x50] := by
  refine ⟨?_, ?_, ?_, ?_, ?_, ?_, ?_⟩ <;> decide +kernel

end Merge

end IndexMerge
