import IndexMerge.Proofs.Lexicon.Read
import Mathlib.Data.List.Induction

/-!
# Which entries a lexicon takes

Entries are offered to a lexicon writer one after another, and it takes those that may come behind
the ones that it took before (`accepted`). An entry that is refused changes nothing of the writer
(`add_refused`). What is delivered in the end is read back, entry by entry, as just the entries that
were taken (`readback_of_offered`).
-/

namespace IndexMerge

variable {layout : Layout}

theorem LexiconEntry.follows_iff {entries : List LexiconEntry} {e : LexiconEntry} :
    e.Follows layout entries ↔ e.term.length ≤ Term.maxLength ∧
      e.statistics.fieldFrequencies.length = layout.fieldCount.toNat ∧
      e.statistics.termId.map UInt32.toNat = some entries.length ∧
      e.statistics.pointer.isSome = true ∧
      ∀ last ∈ entries.getLast?, last.term.precedes e.term = true := by
  constructor
  · rintro ⟨short, fields, ⟨id, pointer, termId, number, place⟩, last⟩
    exact ⟨short, fields, by rw [termId, ← number]; rfl, by rw [place]; rfl, last⟩
  · rintro ⟨short, fields, number, place, last⟩
    obtain ⟨id, termId, number⟩ := Option.map_eq_some_iff.mp number
    obtain ⟨pointer, place⟩ := Option.isSome_iff_exists.mp place
    exact ⟨short, fields, ⟨id, pointer, termId, number, place⟩, last⟩

instance (entries : List LexiconEntry) (e : LexiconEntry) : Decidable (e.Follows layout entries) :=
  decidable_of_iff _ LexiconEntry.follows_iff.symm

/-- Of entries that are offered one after another, those that may come behind the ones taken
before. -/
def accepted (layout : Layout) (entries : List LexiconEntry) : List LexiconEntry :=
  entries.foldl (fun taken e => if e.Follows layout taken then taken ++ [e] else taken) []

theorem accepted_concat (entries : List LexiconEntry) (e : LexiconEntry) :
    accepted layout (entries ++ [e]) = if e.Follows layout (accepted layout entries) then
      accepted layout entries ++ [e] else accepted layout entries :=
  List.foldl_append ..

/-- Each entry that is taken was offered, and may come behind those before it. -/
theorem follows_of_accepted {entries front behind : List LexiconEntry} {e : LexiconEntry}
    (split : accepted layout entries = front ++ e :: behind) :
    e ∈ entries ∧ e.Follows layout front := by
  induction entries using List.reverseRecOn generalizing front e behind with
  | nil => simp [accepted] at split
  | append_singleton entries next ih =>
    rw [accepted_concat] at split
    split at split
    · rename_i follows
      rcases List.eq_nil_or_concat behind with rfl | ⟨behind, last, rfl⟩
      · obtain ⟨rfl, same⟩ := List.append_inj' split rfl
        obtain rfl := List.head_eq_of_cons_eq same
        exact ⟨by simp, follows⟩
      · rw [List.concat_eq_append, ← List.cons_append, ← List.append_assoc] at split
        have ⟨offered, follows⟩ := ih (List.append_inj' split rfl).1
        exact ⟨List.mem_append_left _ offered, follows⟩
    · have ⟨offered, follows⟩ := ih split
      exact ⟨List.mem_append_left _ offered, follows⟩

/-- Entries that are taken have different numbers of 32 bits. -/
theorem length_accepted_le (entries : List LexiconEntry) :
    (accepted layout entries).length ≤ UInt32.size := by
  rcases List.eq_nil_or_concat (accepted layout entries) with none | ⟨front, e, split⟩
  · simp [none]
  · rw [List.concat_eq_append] at split
    obtain ⟨id, pointer, -, number, -⟩ := (follows_of_accepted split).2.placed
    have := id.toNat_lt
    rw [split, List.length_append, List.length_singleton, ← number]
    exact this

/-- Entries that are taken can be stored if the places that were offered can be. -/
theorem storable_of_accepted {entries : List LexiconEntry}
    (placed : ∀ e ∈ entries, ∀ pointer, e.statistics.pointer = some pointer →
      pointer.byte < UInt64.size ∧ pointer.bit < 8) :
    ∀ e ∈ accepted layout entries, e.Storable layout := by
  intro e member
  obtain ⟨front, behind, split⟩ := List.append_of_mem member
  have ⟨offered, follows⟩ := follows_of_accepted split
  obtain ⟨id, pointer, termId, -, place⟩ := follows.placed
  have ⟨bytes, bits⟩ := placed e offered pointer place
  exact ⟨follows.length_le, follows.fields, id, pointer, termId, place, bytes, bits⟩

namespace LexiconReader

/-- The reader after it was asked a number of times. -/
def after : Nat → LexiconReader → LexiconReader
  | 0, r => r
  | k + 1, r => after k r.next.2

theorem after_of_isDone {r : LexiconReader} (done : r.isDone = true) (k : Nat) :
    after k r = r := by
  induction k with
  | zero => rfl
  | succ k ih => rw [after, next, if_pos done, ih]

/-- Before an entry that can be stored a reader gives it. -/
theorem next_entry {e : LexiconEntry} (storable : e.Storable layout) (rest : List UInt8)
    (count : Nat) : next ⟨.ofList (e.encode ++ rest), layout, count, false⟩ =
      (some (.ok e), ⟨.ofList rest, layout, count + 1, false⟩) := by
  unfold next
  rw [if_neg Bool.false_ne_true]
  dsimp only
  rw [decodeNext_entry storable count rest]

/-- Before a trailer that counts the entries a reader is done. -/
theorem next_trailer {count : Nat} (short : count < UInt64.size) :
    next ⟨.ofList (LexiconFormat.trailer count), layout, count, false⟩ =
      (none, ⟨.ofList [], layout, count, true⟩) := by
  unfold next
  rw [if_neg Bool.false_ne_true]
  dsimp only
  rw [decodeNext_trailer short]

/-- A reader before entries and their trailer gives the entries in order, and none behind them. -/
theorem next_after {entries : List LexiconEntry} (storable : ∀ e ∈ entries, e.Storable layout)
    (count : Nat) (short : count + entries.length < UInt64.size) (k : Nat) :
    (next (after k ⟨.ofList (entries.flatMap LexiconEntry.encode ++
      LexiconFormat.trailer (count + entries.length)), layout, count, false⟩)).1 =
      entries[k]?.map .ok := by
  induction entries generalizing count k with
  | nil =>
    rw [List.length_nil, Nat.add_zero] at short ⊢
    rw [List.flatMap_nil, List.nil_append]
    cases k with
    | zero => rw [after, next_trailer short]; rfl
    | succ k => rw [after, next_trailer short, after_of_isDone rfl]; rfl
  | cons e entries ih =>
    have given := next_entry (storable e (List.mem_cons_self ..))
      (entries.flatMap LexiconEntry.encode ++
        LexiconFormat.trailer (count + (e :: entries).length)) count
    have behind : count + (e :: entries).length = count + 1 + entries.length := by
      rw [List.length_cons]
      omega
    rw [List.flatMap_cons, List.append_assoc]
    cases k with
    | zero => rw [after, given]; rfl
    | succ k =>
      rw [after, given, behind]
      exact ih (fun other listed => storable other (List.mem_cons_of_mem _ listed)) (count + 1)
        (behind ▸ short) k

/-- From a lexicon that holds entries which can be stored they are read one after another. -/
theorem reads_lexicon {entries : List LexiconEntry} (storable : ∀ e ∈ entries, e.Storable layout)
    (short : entries.length < UInt64.size) :
    ∃ r, start (.ofList (LexiconFormat.header layout ++
        (entries.flatMap LexiconEntry.encode ++ LexiconFormat.trailer entries.length))) = .ok r ∧
      r.layout = layout ∧ ∀ k, (after k r).next.1 = entries[k]?.map .ok := by
  have each := next_after storable 0 (by omega)
  rw [Nat.zero_add] at each
  exact ⟨_, start_header layout _, rfl, each⟩

end LexiconReader

namespace LexiconWriter

variable {W : Type} [ByteSink W] [FaithfulSink W] {w : LexiconWriter W}
  {entries : List LexiconEntry} {e : LexiconEntry}

omit [ByteSink W] [FaithfulSink W] in
/-- An entry that passes the check may come next. -/
theorem follows_of_check (fieldCount : w.fieldCount = layout.fieldCount)
    (count : w.count = entries.length) (last : w.last = entries.getLast?.map LexiconEntry.term)
    {placed : UInt32 × BitPosition} (checked : w.check e.term e.statistics = .ok placed) :
    e.Follows layout entries := by
  obtain ⟨id, pointer⟩ := placed
  obtain ⟨short, fields, termId, number, place, behind⟩ := of_check_eq_ok checked
  refine ⟨short, fields.trans (by rw [fieldCount]), ⟨id, pointer, termId, ?_, place⟩, ?_⟩
  · rw [number, count]
  · intro before found
    rw [last, found] at behind
    simpa using behind

/-- An entry that may not come next is refused, and the writer is as it was. -/
theorem add_refused (h : w.Holds layout entries) (refused : ¬e.Follows layout entries) :
    ∃ error, add e w = (.error error, w) := by
  unfold add
  cases checked : w.check e.term e.statistics with
  | error error => exact ⟨error, rfl⟩
  | ok placed =>
    exact absurd (follows_of_check h.fieldCount_eq h.count_eq h.last_eq checked) refused

/-- An entry that was written may come next, and is held behind the others. -/
theorem Holds.of_add {w' : LexiconWriter W} (h : w.Holds layout entries)
    (added : add e w = (.ok (), w')) :
    e.Follows layout entries ∧ w'.Holds layout (entries ++ [e]) := by
  by_cases follows : e.Follows layout entries
  · obtain ⟨after, taken, holds⟩ := add_eq_ok h follows
    cases taken.symm.trans added
    exact ⟨follows, holds⟩
  · obtain ⟨error, same⟩ := add_refused h follows
    cases same.symm.trans added

/-- The writer after entries were offered to it, whichever it refused. -/
def offered (entries : List LexiconEntry) (w : LexiconWriter W) : LexiconWriter W :=
  entries.foldl (fun w e => (add e w).2) w

omit [FaithfulSink W] in
theorem offered_concat (entries : List LexiconEntry) (e : LexiconEntry) (w : LexiconWriter W) :
    offered (entries ++ [e]) w = (add e (offered entries w)).2 :=
  List.foldl_append ..

/-- A writer takes the entries that may come next and holds these. -/
theorem holds_offered (h : w.Holds layout []) (entries : List LexiconEntry) :
    (offered entries w).Holds layout (accepted layout entries) := by
  induction entries using List.reverseRecOn with
  | nil => exact h
  | append_singleton entries e ih =>
    rw [offered_concat, accepted_concat]
    split
    · rename_i follows
      obtain ⟨w', added, holds⟩ := add_eq_ok ih follows
      rw [added]
      exact holds
    · rename_i refused
      obtain ⟨error, same⟩ := add_refused ih refused
      rw [same]
      exact ih

/-- Entries are offered to a writer over a sink that never fails, whatever its capacity. A next
entry is taken just if it may come behind those that were taken, which the writer counts, and if it
is refused the writer stays as it was. Finishing gives the number of entries that were taken and
delivers bytes that depend on these alone. From the bytes a reader gives the layout, then the
entries in order, and none from then on. -/
theorem readback_of_offered {sink : W} (fresh : Fresh sink) (layout : Layout) (capacity : Nat)
    (entries : List LexiconEntry)
    (placed : ∀ e ∈ entries, ∀ pointer, e.statistics.pointer = some pointer →
      pointer.byte < UInt64.size ∧ pointer.bit < 8) :
    let taken := accepted layout entries
    let w := offered entries (start capacity sink layout)
    w.count = taken.length ∧
    (∀ e, ((add e w).1 = .ok () ↔ e.Follows layout taken) ∧
      ∀ error, (add e w).1 = .error error → (add e w).2 = w) ∧
    ∃ closed, finish w = (.ok taken.length, closed) ∧
      FaithfulSink.content closed.sink = LexiconFormat.header layout ++
        (taken.flatMap LexiconEntry.encode ++ LexiconFormat.trailer taken.length) ∧
      ∃ r, LexiconReader.start (.ofList (FaithfulSink.content closed.sink)) = .ok r ∧
        r.layout = layout ∧ ∀ k, (LexiconReader.after k r).next.1 = taken[k]?.map .ok := by
  intro taken w
  have holds : w.Holds layout taken := holds_offered (holds_start capacity fresh) entries
  refine ⟨holds.count_eq, fun e => ?_, ?_⟩
  · by_cases follows : e.Follows layout taken
    · obtain ⟨w', added, -⟩ := add_eq_ok holds follows
      rw [added]
      exact ⟨⟨fun _ => follows, fun _ => rfl⟩, nofun⟩
    · obtain ⟨error, same⟩ := add_refused holds follows
      rw [same]
      exact ⟨⟨nofun, fun next => absurd next follows⟩, fun _ _ => rfl⟩
  · obtain ⟨closed, finished, content⟩ := finish_eq_ok holds
    have short : taken.length < UInt64.size :=
      Nat.lt_of_le_of_lt (length_accepted_le entries) (by decide)
    refine ⟨closed, finished, content, ?_⟩
    rw [content]
    exact LexiconReader.reads_lexicon (storable_of_accepted placed) short

/-- Five entries, of which the third goes back to a lesser term and the fourth skips a number. -/
def fiveEntries : List LexiconEntry :=
  let entry (term : Term) (id : UInt32) (pointer : BitPosition) : LexiconEntry :=
    ⟨term, ⟨1, 2, [0xffffffffffffffff], some id, some pointer⟩⟩
  [entry [] 0 ⟨0, 0⟩, entry [0xff, 1] 1 ⟨0, 5⟩, entry [97] 2 ⟨3, 0⟩, entry [0xff, 1, 0] 7 ⟨3, 1⟩,
    entry [0xff, 1, 0] 2 ⟨0xffffffffffffffff, 7⟩]

theorem accepted_fiveEntries :
    accepted ⟨1, true⟩ fiveEntries = [fiveEntries[0], fiveEntries[1], fiveEntries[4]] := by
  decide

/-- The first two entries and the last one are taken and read back. -/
theorem readback_of_offered_refusing :
    ∃ closed, finish (offered fiveEntries (start 1 (#[] : Array UInt8) ⟨1, true⟩)) =
        (.ok 3, closed) ∧
      ∃ r, LexiconReader.start (.ofList closed.sink.toList) = .ok r ∧ r.layout = ⟨1, true⟩ ∧
        ∀ k, (LexiconReader.after k r).next.1 =
          [fiveEntries[0], fiveEntries[1], fiveEntries[4]][k]?.map .ok := by
  obtain ⟨-, -, closed, finished, -, read⟩ :=
    readback_of_offered fresh_array ⟨1, true⟩ 1 fiveEntries (by simp [fiveEntries, UInt64.size])
  rw [accepted_fiveEntries] at finished read
  exact ⟨closed, finished, read⟩

end LexiconWriter

end IndexMerge
