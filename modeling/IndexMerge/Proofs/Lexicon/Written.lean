import IndexMerge.Lexicon.Writer
import IndexMerge.Proofs.Bytes.Delivery
import IndexMerge.Proofs.InvertedFile.View

/-!
# What a lexicon writer has written

Over a sink that never fails, the entries of a lexicon writer are written behind its header, one
behind another, whatever the capacity (`LexiconWriter.view`), and finishing adds the trailer that
counts them (`finish_eq_ok`).
-/

namespace IndexMerge

/-- The bytes of an entry that has a number and a place. -/
def LexiconEntry.encode (e : LexiconEntry) : List UInt8 :=
  match e.statistics.termId, e.statistics.pointer with
  | some id, some pointer => LexiconFormat.entry e.term e.statistics id pointer
  | _, _ => []

namespace LexiconWriter

variable {W : Type} [ByteSink W] [FaithfulSink W] {layout : Layout} {w : LexiconWriter W}

/-- All bytes written so far. -/
def written (w : LexiconWriter W) : List UInt8 := FaithfulSink.content w.sink ++ w.staged.toList

/-- The writer takes entries, and holds these behind its header. -/
structure Holds (layout : Layout) (w : LexiconWriter W) (entries : List LexiconEntry) : Prop where
  isOpen : w.isFinished = false
  fieldCount_eq : w.fieldCount = layout.fieldCount
  neverFails : NeverFails w.sink
  count_eq : w.count = entries.length
  last_eq : w.last = entries.getLast?.map LexiconEntry.term
  written_eq : w.written = LexiconFormat.header layout ++ entries.flatMap LexiconEntry.encode

omit [FaithfulSink W] [ByteSink W] in
theorem check_eq_ok {entries : List LexiconEntry} {e : LexiconEntry} (isOpen : w.isFinished = false)
    (fieldCount : w.fieldCount = layout.fieldCount) (count : w.count = entries.length)
    (last : w.last = entries.getLast?.map LexiconEntry.term) (follows : e.Follows layout entries) :
    ∃ id pointer, w.check e.term e.statistics = .ok (id, pointer) ∧
      e.statistics.termId = some id ∧ e.statistics.pointer = some pointer := by
  obtain ⟨id, pointer, termId, number, place⟩ := follows.placed
  have after : w.last.filter (fun last => !last.precedes e.term) = none := by
    rw [last]
    cases found : entries.getLast? with
    | none => rfl
    | some before => simp [Option.filter_some, follows.last before found]
  refine ⟨id, pointer, ?_, termId, place⟩
  unfold check
  rw [if_neg (by simp [isOpen]), if_neg (Nat.not_lt_of_le follows.length_le),
    if_neg (by simp [follows.fields, fieldCount]), termId, place]
  dsimp only
  rw [after]
  dsimp only
  rw [if_neg (by simp [number, count])]

omit [ByteSink W] [FaithfulSink W] in
/-- What an entry has that passes the check. -/
theorem of_check_eq_ok {e : LexiconEntry} {id : UInt32} {pointer : BitPosition}
    (checked : w.check e.term e.statistics = .ok (id, pointer)) :
    e.term.length ≤ Term.maxLength ∧ e.statistics.fieldFrequencies.length = w.fieldCount.toNat ∧
      e.statistics.termId = some id ∧ id.toNat = w.count ∧ e.statistics.pointer = some pointer ∧
      w.last.filter (fun last => !last.precedes e.term) = none := by
  unfold check at checked
  split at checked
  · cases checked
  split at checked
  · cases checked
  rename_i short
  split at checked
  · cases checked
  rename_i fields
  split at checked
  · rename_i termId place
    split at checked
    · cases checked
    rename_i behind
    split at checked
    · cases checked
    rename_i number
    cases checked
    exact ⟨Nat.le_of_not_lt short, Decidable.of_not_not fields, termId,
      Decidable.of_not_not number, place, behind⟩
  · cases checked

/-- The writer with an entry staged. -/
def stage (w : LexiconWriter W) (e : LexiconEntry) : LexiconWriter W :=
  { w with
    staged := w.staged ++ e.encode
    last := some e.term
    count := w.count + 1 }

theorem written_stage (w : LexiconWriter W) (e : LexiconEntry) :
    (w.stage e).written = w.written ++ e.encode := by
  unfold written stage
  rw [Array.toList_appendList, List.append_assoc]

/-- An entry that is staged is written behind the others. -/
theorem written_stage_eq {entries : List LexiconEntry}
    (written : w.written = LexiconFormat.header layout ++ entries.flatMap LexiconEntry.encode)
    (e : LexiconEntry) : (w.stage e).written =
      LexiconFormat.header layout ++ (entries ++ [e]).flatMap LexiconEntry.encode := by
  rw [written_stage, written, List.flatMap_append, List.flatMap_singleton, List.append_assoc]

/-- Before any entry the header is written. -/
theorem written_start {sink : W} (capacity : Nat) (empty : FaithfulSink.content sink = []) :
    (start capacity sink layout).written =
      LexiconFormat.header layout ++ List.flatMap LexiconEntry.encode [] := by
  unfold written start
  dsimp only
  rw [empty, List.nil_append, List.flatMap_nil, List.append_nil]

omit [FaithfulSink W] in
/-- An entry that passes the check is staged, and delivered with all that is staged if that is
enough. -/
theorem add_of_check {e : LexiconEntry} {placed : UInt32 × BitPosition}
    (checked : w.check e.term e.statistics = .ok placed) :
    add e w = if w.capacity ≤ (w.stage e).staged.size then flush (w.stage e)
      else (.ok (), w.stage e) := by
  obtain ⟨id, pointer⟩ := placed
  obtain ⟨-, -, termId, -, place, -⟩ := of_check_eq_ok checked
  have here : e.encode = LexiconFormat.entry e.term e.statistics id pointer := by
    rw [LexiconEntry.encode, termId, place]
  unfold add stage
  rw [checked, here]

omit [FaithfulSink W] in
/-- What is staged is delivered, or it stays staged. -/
theorem flush_cases (w : LexiconWriter W) :
    (∃ sink, ByteSink.write w.staged w.sink = (.ok (), sink) ∧
      flush w = (.ok (), { w with sink, staged := #[] })) ∨
    ∃ fault sink, ByteSink.write w.staged w.sink = (.error fault, sink) ∧
      flush w = (.error (.io "writing lexicon" fault), { w with sink }) := by
  unfold flush
  rcases wrote : ByteSink.write w.staged w.sink with ⟨fault | _, sink⟩
  · exact .inr ⟨fault, sink, rfl, rfl⟩
  · exact .inl ⟨sink, rfl, rfl⟩

/-- Delivering what is staged does not change what was written. -/
theorem written_delivered {sink : W} (wrote : ByteSink.write w.staged w.sink = (.ok (), sink)) :
    written { w with sink, staged := #[] } = w.written := by
  unfold written
  rw [FaithfulSink.content_write wrote, List.append_nil]

theorem Holds.stage {entries : List LexiconEntry} (h : w.Holds layout entries) (e : LexiconEntry) :
    (w.stage e).Holds layout (entries ++ [e]) := by
  refine ⟨h.isOpen, h.fieldCount_eq, h.neverFails, ?_, ?_, written_stage_eq h.written_eq e⟩
  · show w.count + 1 = _
    rw [List.length_append, List.length_singleton, h.count_eq]
  · rw [List.getLast?_append]
    rfl

theorem Holds.flush {entries : List LexiconEntry} (h : w.Holds layout entries) :
    ∃ w', LexiconWriter.flush w = (.ok (), w') ∧ w'.Holds layout entries := by
  obtain ⟨next, delivered, still⟩ := h.neverFails.write w.staged
  obtain ⟨sink, wrote, flushed⟩ | ⟨fault, sink, failed, -⟩ := flush_cases w
  · cases delivered.symm.trans wrote
    refine ⟨_, flushed, h.isOpen, h.fieldCount_eq, still, h.count_eq, h.last_eq, ?_⟩
    rw [written_delivered delivered, h.written_eq]
  · cases delivered.symm.trans failed

/-- An entry that may come next is written behind the others. -/
theorem add_eq_ok {entries : List LexiconEntry} {e : LexiconEntry} (h : w.Holds layout entries)
    (follows : e.Follows layout entries) :
    ∃ w', add e w = (.ok (), w') ∧ w'.Holds layout (entries ++ [e]) := by
  obtain ⟨id, pointer, checked, -, -⟩ :=
    check_eq_ok h.isOpen h.fieldCount_eq h.count_eq h.last_eq follows
  rw [add_of_check checked]
  split
  · exact (h.stage e).flush
  · exact ⟨w.stage e, rfl, h.stage e⟩

/-- A writer holds the entries that it has written. -/
def view (W : Type) [ByteSink W] [FaithfulSink W] (layout : Layout) :
    DictionaryView (LexiconWriter W) layout where
  Has w entries := w.Holds layout entries
  add has follows := add_eq_ok has follows

theorem holds_start {sink : W} (capacity : Nat) (fresh : Fresh sink) :
    (start capacity sink layout).Holds layout [] :=
  ⟨rfl, rfl, fresh.neverFails, rfl, rfl, written_start capacity fresh.empty⟩

/-- The writer with the trailer staged. -/
def conclude (w : LexiconWriter W) : LexiconWriter W :=
  { w with isFinished := true, staged := w.staged ++ LexiconFormat.trailer w.count }

theorem written_conclude (w : LexiconWriter W) :
    w.conclude.written = w.written ++ LexiconFormat.trailer w.count := by
  unfold written conclude
  rw [Array.toList_appendList, List.append_assoc]

omit [FaithfulSink W] in
theorem finish_of_isOpen (isOpen : w.isFinished = false) :
    finish w = match flush w.conclude with
      | (.error e, w) => (.error e, w)
      | (.ok (), w) =>
        match ByteSink.finish w.sink with
        | (.ok (), sink) => (.ok w.count, { w with sink })
        | (.error fault, sink) => (.error (.io "sealing lexicon" fault), { w with sink }) := by
  rw [finish, isOpen, if_neg Bool.false_ne_true]
  rfl

/-- A writer that could be finished has delivered what was written and the trailer. -/
theorem content_of_finish {w' : LexiconWriter W} {count : Nat} (isOpen : w.isFinished = false)
    (finished : finish w = (.ok count, w')) :
    count = w.count ∧
      FaithfulSink.content w'.sink = w.written ++ LexiconFormat.trailer w.count := by
  rw [finish_of_isOpen isOpen] at finished
  obtain ⟨sink, wrote, flushed⟩ | ⟨fault, sink, -, flushed⟩ := flush_cases w.conclude <;>
    rw [flushed] at finished <;> dsimp only at finished
  · have kept := FaithfulSink.content_finish sink
    rcases sealing : ByteSink.finish sink with ⟨fault | _, sink'⟩ <;>
      rw [sealing] at finished kept <;> cases finished
    refine ⟨rfl, ?_⟩
    rw [← written_conclude]
    exact kept.trans (FaithfulSink.content_write wrote)
  · cases finished

/-- Finishing delivers the header, the entries and the trailer. -/
theorem finish_eq_ok {entries : List LexiconEntry} (h : w.Holds layout entries) :
    ∃ w', finish w = (.ok entries.length, w') ∧
      FaithfulSink.content w'.sink = LexiconFormat.header layout ++
        (entries.flatMap LexiconEntry.encode ++ LexiconFormat.trailer entries.length) := by
  obtain ⟨next, delivered, still⟩ := h.neverFails.write w.conclude.staged
  obtain ⟨last, sealing⟩ := still.finish
  have finished : finish w =
      (.ok entries.length, { w.conclude with sink := last, staged := #[] }) := by
    rw [finish_of_isOpen h.isOpen]
    obtain ⟨sink, wrote, flushed⟩ | ⟨fault, sink, failed, -⟩ := flush_cases w.conclude
    · cases delivered.symm.trans wrote
      rw [flushed]
      dsimp only
      rw [sealing, ← h.count_eq]
      rfl
    · cases delivered.symm.trans failed
  refine ⟨_, finished, ?_⟩
  rw [(content_of_finish h.isOpen finished).2, h.written_eq, h.count_eq, List.append_assoc]

end LexiconWriter

end IndexMerge
