import IndexMerge.Proofs.Lexicon.Accepted

/-!
# Lexicons whose deliveries fail

A delivery that fails keeps nothing, and what it was given stays staged behind what was delivered.
So whichever deliveries fail, a lexicon writer has written just the entries that passed its check,
whether or not they could be delivered when they were added (`Keeps.offered`). If it can be finished
in the end, all of them are delivered, in order and each once (`readback_of_failing`).
-/

namespace IndexMerge

namespace LexiconWriter

variable {W : Type} [ByteSink W] [FaithfulSink W] {layout : Layout} {w : LexiconWriter W}
  {entries : List LexiconEntry} {e : LexiconEntry}

/-- Whether adding an entry succeeded, or failed because of a delivery. -/
def isTaken : Except Error Unit → Bool
  | .ok () => true
  | .error (.io _ _) => true
  | .error _ => false

/-- Of entries that are added one after another, those that were added or whose delivery failed. -/
def taken : List LexiconEntry → LexiconWriter W → List LexiconEntry
  | [], _ => []
  | e :: entries, w =>
    if isTaken (add e w).1 then e :: taken entries (add e w).2 else taken entries (add e w).2

/-- The writer takes entries, and has written these behind its header. Deliveries may fail, but a
delivery that fails keeps nothing. -/
structure Keeps (layout : Layout) (w : LexiconWriter W) (entries : List LexiconEntry) : Prop where
  isOpen : w.isFinished = false
  fieldCount_eq : w.fieldCount = layout.fieldCount
  atomic : Atomic w.sink
  count_eq : w.count = entries.length
  last_eq : w.last = entries.getLast?.map LexiconEntry.term
  written_eq : w.written = LexiconFormat.header layout ++ entries.flatMap LexiconEntry.encode

theorem keeps_start {sink : W} (capacity : Nat) (atomic : Atomic sink)
    (empty : FaithfulSink.content sink = []) : (start capacity sink layout).Keeps layout [] :=
  ⟨rfl, rfl, atomic, rfl, rfl, written_start capacity empty⟩

omit [ByteSink W] [FaithfulSink W] in
/-- The check of an entry delivers nothing, so it cannot fail because of a delivery. -/
theorem isTaken_of_check {error : Error} (refused : w.check e.term e.statistics = .error error) :
    isTaken (.error error) = false := by
  unfold check at refused
  repeat' split at refused
  all_goals cases refused
  all_goals rfl

theorem Keeps.stage (h : w.Keeps layout entries) (e : LexiconEntry) :
    (w.stage e).Keeps layout (entries ++ [e]) := by
  refine ⟨h.isOpen, h.fieldCount_eq, h.atomic, ?_, ?_, written_stage_eq h.written_eq e⟩
  · simp [LexiconWriter.stage, h.count_eq]
  · simp [LexiconWriter.stage]

/-- Whether what is staged can be delivered or not, the same entries are written. -/
theorem Keeps.flush (h : w.Keeps layout entries) :
    isTaken (LexiconWriter.flush w).1 = true ∧ (LexiconWriter.flush w).2.Keeps layout entries := by
  have still := h.atomic.write w.staged
  obtain ⟨sink, wrote, flushed⟩ | ⟨fault, sink, failed, flushed⟩ := flush_cases w
  · rw [wrote] at still
    rw [flushed]
    refine ⟨rfl, h.isOpen, h.fieldCount_eq, still, h.count_eq, h.last_eq, ?_⟩
    exact (written_delivered wrote).trans h.written_eq
  · rw [failed] at still
    rw [flushed]
    refine ⟨rfl, h.isOpen, h.fieldCount_eq, still, h.count_eq, h.last_eq, ?_⟩
    rw [← h.written_eq, written, written, h.atomic.content_eq failed]

/-- An entry that may come next is taken and written behind the others, even if the delivery that
it asks for fails. -/
theorem Keeps.add (h : w.Keeps layout entries) (follows : e.Follows layout entries) :
    isTaken (LexiconWriter.add e w).1 = true ∧
      (LexiconWriter.add e w).2.Keeps layout (entries ++ [e]) := by
  obtain ⟨id, pointer, checked, -⟩ :=
    check_eq_ok h.isOpen h.fieldCount_eq h.count_eq h.last_eq follows
  rw [add_of_check checked]
  by_cases full : w.capacity ≤ (w.stage e).staged.size
  · rw [if_pos full]
    exact (h.stage e).flush
  · rw [if_neg full]
    exact ⟨rfl, h.stage e⟩

/-- An entry that may not come next is not taken, and the writer is as it was. -/
theorem Keeps.add_refused (h : w.Keeps layout entries) (refused : ¬e.Follows layout entries) :
    isTaken (LexiconWriter.add e w).1 = false ∧ (LexiconWriter.add e w).2 = w := by
  unfold LexiconWriter.add
  cases checked : w.check e.term e.statistics with
  | error error => exact ⟨isTaken_of_check checked, rfl⟩
  | ok placed =>
    exact absurd (follows_of_check h.fieldCount_eq h.count_eq h.last_eq checked) refused

/-- However adding them ends, the entries that may come next are those that are taken, and these
are written behind the ones before. -/
theorem Keeps.offered {before : List LexiconEntry} (h : w.Keeps layout (accepted layout before))
    (entries : List LexiconEntry) :
    (LexiconWriter.offered entries w).Keeps layout (accepted layout (before ++ entries)) ∧
      accepted layout (before ++ entries) = accepted layout before ++ taken entries w := by
  induction entries generalizing before w with
  | nil => simpa [LexiconWriter.offered, taken] using h
  | cons e entries ih =>
    have next := @accepted_concat layout before e
    rw [← List.singleton_append, ← List.append_assoc, List.singleton_append]
    by_cases follows : e.Follows layout (accepted layout before)
    · -- whether or not it can be delivered
      have ⟨isTaken, keeps⟩ := h.add follows
      rw [if_pos follows] at next
      rw [← next] at keeps
      have ⟨keeps, same⟩ := ih keeps
      refine ⟨keeps, ?_⟩
      rw [same, next, taken, if_pos isTaken]
      simp
    · have ⟨notTaken, same⟩ := h.add_refused follows
      rw [if_neg follows] at next
      rw [← next, ← same] at h
      have ⟨keeps, same⟩ := ih h
      refine ⟨keeps, ?_⟩
      rw [same, next, taken, notTaken]
      simp

omit [FaithfulSink W] in
/-- A writer that was finished still counts the entries that it gave the number of. -/
theorem count_of_finish {count : Nat} {closed : LexiconWriter W}
    (finished : finish w = (.ok count, closed)) : closed.count = count := by
  unfold finish at finished
  split at finished
  · cases finished
  · split at finished
    · cases finished
    · split at finished
      · cases finished
        rfl
      · cases finished

/-- Entries are added one after another to a writer over a sink that may fail at any delivery, but
then keeps nothing. Taken are those that were added and those whose delivery failed, which are the
ones that may come behind the ones taken before, and the writer counts them. If it can be finished,
it gives their number, and it has delivered the header, them in order and each once, and the
trailer. From this a reader gives the layout, then the entries that were taken, and none from then
on. -/
theorem readback_of_failing {sink : W} (atomic : Atomic sink)
    (empty : FaithfulSink.content sink = []) (layout : Layout) (capacity : Nat)
    (entries : List LexiconEntry)
    (placed : ∀ e ∈ entries, ∀ pointer, e.statistics.pointer = some pointer →
      pointer.byte < UInt64.size ∧ pointer.bit < 8) :
    let w := offered entries (start capacity sink layout)
    let taken := taken entries (start capacity sink layout)
    taken = accepted layout entries ∧ w.count = taken.length ∧
    ∀ count closed, finish w = (.ok count, closed) →
      count = taken.length ∧ closed.count = taken.length ∧
      FaithfulSink.content closed.sink = LexiconFormat.header layout ++
        (taken.flatMap LexiconEntry.encode ++ LexiconFormat.trailer taken.length) ∧
      ∃ r, LexiconReader.start (.ofList (FaithfulSink.content closed.sink)) = .ok r ∧
        r.layout = layout ∧ ∀ k, (LexiconReader.after k r).next.1 = taken[k]?.map .ok := by
  intro w taken
  have begun : (start capacity sink layout).Keeps layout (accepted layout []) :=
    keeps_start capacity atomic empty
  have ⟨keeps, same⟩ := begun.offered entries
  have same : accepted layout entries = taken := same
  have keeps : w.Keeps layout taken := by
    rw [← same]
    exact keeps
  refine ⟨same.symm, keeps.count_eq, fun count closed finished => ?_⟩
  have ⟨counted, content⟩ := content_of_finish keeps.isOpen finished
  rw [keeps.written_eq, keeps.count_eq, List.append_assoc] at content
  have storable : ∀ e ∈ taken, e.Storable layout := by
    rw [← same]
    exact storable_of_accepted placed
  have short : taken.length < UInt64.size := by
    rw [← same]
    exact Nat.lt_of_le_of_lt (length_accepted_le entries) (by decide)
  have counted := counted.trans keeps.count_eq
  refine ⟨counted, (count_of_finish finished).trans counted, content, ?_⟩
  rw [content]
  exact LexiconReader.reads_lexicon storable short

/-- A sink whose second delivery fails. -/
def secondFails : Recorder := .start (· == 1) fun _ => false

/-- Of five entries the second one cannot be delivered when it is added, and the next two may not
come next. The last one is delivered together with the second one. -/
theorem readback_of_failing_secondFails :
    let w := start 1 secondFails ⟨1, true⟩
    (add fiveEntries[1] (add fiveEntries[0] w).2).1 =
        .error (.io "writing lexicon" .deviceLost) ∧
      taken fiveEntries w = [fiveEntries[0], fiveEntries[1], fiveEntries[4]] ∧
      ∃ closed, finish (offered fiveEntries w) = (.ok 3, closed) ∧
        ∃ r, LexiconReader.start (.ofList closed.sink.bytes.toList) = .ok r ∧
          r.layout = ⟨1, true⟩ ∧ ∀ k, (LexiconReader.after k r).next.1 =
            [fiveEntries[0], fiveEntries[1], fiveEntries[4]][k]?.map .ok := by
  obtain ⟨same, -, read⟩ := readback_of_failing (atomic_recorder secondFails) rfl ⟨1, true⟩ 1
    fiveEntries (by simp [fiveEntries, UInt64.size])
  rw [accepted_fiveEntries] at same
  obtain ⟨closed, finished⟩ :
      ∃ closed, finish (offered fiveEntries (start 1 secondFails ⟨1, true⟩)) = (.ok 3, closed) :=
    ⟨_, Prod.ext (by decide) rfl⟩
  obtain ⟨-, -, -, read⟩ := read 3 closed finished
  rw [same] at read
  exact ⟨by decide, same, closed, finished, read⟩

end LexiconWriter

end IndexMerge
