import IndexMerge.Proofs.Merge.Custody
import IndexMerge.Proofs.Schedule.Merged
import IndexMerge.Proofs.Statistics

/-!
# What a step can do

A step stores the list of a group, enters its term and counts it, or does none of this, whatever
its cursors report and wherever it fails (`steps_step`). What holds between the steps of any merge
is derived from these cases and not from the code of the step.
-/

namespace IndexMerge

/-- The entry of a term that was written. -/
def MergedTerm.entry (merged : MergedTerm) : LexiconEntry := ⟨merged.term, merged.statistics⟩

namespace Merge

variable {C S : Type} [RunCursor C]

section Counts

/-- Statistics that could be taken together have the sum of the document frequencies. -/
theorem documentFrequency_combine {mine theirs s : TermStatistics}
    (combined : mine.combine theirs = .ok s) : s.documentFrequency.toNat =
      mine.documentFrequency.toNat + theirs.documentFrequency.toNat := by
  obtain ⟨-, cause, refused⟩ | ⟨-, short, done⟩ := TermStatistics.combine_cases mine theirs
  · cases refused.symm.trans combined
  · cases done.symm.trans combined
    rw [UInt32.toNat_add]
    exact Nat.mod_eq_of_lt short

/-- The document frequency of a group is what its cursors announce. -/
theorem documentFrequency_combineAll {first : Lease C} {rest : List (Lease C)}
    {s : TermStatistics} (combined : combineAll first rest = .ok s) :
    s.documentFrequency.toNat = announced (first :: rest) := by
  have folded : ∀ (rest : List (Lease C)) (sum : TermStatistics),
      rest.foldlM (fun sum lease => sum.combine (RunCursor.statistics lease.cursor)) sum = .ok s →
      s.documentFrequency.toNat = sum.documentFrequency.toNat + announced rest := by
    intro rest
    induction rest with
    | nil =>
      intro sum same
      cases same
      rfl
    | cons lease rest ih =>
      intro sum combined
      rw [List.foldlM_cons] at combined
      cases next : sum.combine (RunCursor.statistics lease.cursor) with
      | error e =>
        rw [next] at combined
        cases combined
      | ok sum' =>
        rw [next] at combined
        rw [ih sum' combined, documentFrequency_combine next, announced, announced, List.map_cons,
          total_cons, Nat.add_assoc]
  rw [folded rest _ combined, announced, announced, List.map_cons, total_cons]
  rfl

/-- Counting a term tells that it was merged. -/
theorem merged_count (m : Merge C S) (merged : MergedTerm) (pointer : BitPosition)
    (postings : Nat) : (m.count merged pointer postings).schedule.journal.merged =
      m.schedule.journal.merged ++ [(merged.term, merged.runs)] := by
  unfold count
  dsimp only
  split <;> simp [tell, Schedule.tell, Event.merged]

end Counts

/-- Two states of a merge have the same output: the sink, the progress and the merged terms that
were told. -/
structure SameOutput (m m' : Merge C S) : Prop where
  sink_eq : m'.sink = m.sink
  progress_eq : m'.progress = m.progress
  merged_eq : m'.schedule.journal.merged = m.schedule.journal.merged

variable [PostingSink S] {m m' m₁ m₁' : Merge C S} {leases : List (Lease C)} {e : LexiconEntry}
  {dictionary : Array LexiconEntry}

/-- A term was written: the list of a group was stored, as many postings as its cursors announce,
and the term is numbered, told and counted. -/
structure Writes (leases : List (Lease C)) (e : LexiconEntry) (m m' : Merge C S) : Prop where
  sink_eq : m'.sink = (store e.term leases m.sink).2.2
  stored : ∃ pointer, (store e.term leases m.sink).1 = .ok pointer ∧
    e.statistics.pointer = some pointer
  room : m.progress.terms < UInt32.size
  termId : e.statistics.termId = some (UInt32.ofNat m.progress.terms)
  documentFrequency : e.statistics.documentFrequency.toNat = announced leases
  progress_eq : m'.progress =
    ⟨m.progress.terms + 1, m.progress.postings + e.statistics.documentFrequency.toNat⟩
  merged_eq : m'.schedule.journal.merged =
    m.schedule.journal.merged ++ [(e.term, leases.map Lease.runIndex)]

/-- No term was written: nothing was counted, and if a list reached the sink, it has no entry. -/
structure Refuses (m m' : Merge C S) : Prop where
  sink_eq : m'.sink = m.sink ∨
    ∃ (term : Term) (leases : List (Lease C)), m'.sink = (store term leases m.sink).2.2
  progress_eq : m'.progress = m.progress
  merged_eq : m'.schedule.journal.merged = m.schedule.journal.merged

theorem Writes.congr (h : Writes leases e m m') (before : SameOutput m m₁)
    (after : SameOutput m' m₁') : Writes leases e m₁ m₁' := by
  obtain ⟨sink, progress, merged⟩ := before
  constructor
  · rw [after.sink_eq, h.sink_eq, sink]
  · rw [sink]
    exact h.stored
  · rw [progress]
    exact h.room
  · rw [progress]
    exact h.termId
  · exact h.documentFrequency
  · rw [after.progress_eq, h.progress_eq, progress]
  · rw [after.merged_eq, h.merged_eq, merged]

theorem Refuses.congr (h : Refuses m m') (before : SameOutput m m₁)
    (after : SameOutput m' m₁') : Refuses m₁ m₁' := by
  obtain ⟨sink, progress, merged⟩ := before
  constructor
  · rw [after.sink_eq, sink]
    exact h.sink_eq
  · rw [after.progress_eq, h.progress_eq, progress]
  · rw [after.merged_eq, h.merged_eq, merged]

section Writing

variable {D : Type} [Dictionary D]

/-- A step that succeeds returns the entry that was written, with the number of its term. -/
def Returns (result : Except Error MergedTerm) (number : Nat) (e : LexiconEntry) : Prop :=
  ∀ merged, result = .ok merged → merged.entry = e ∧ merged.termId = UInt32.ofNat number

/-- A dictionary took no entry: it is as it was, or it failed to take one. -/
def TakesNone (dictionary after : D) : Prop :=
  after = dictionary ∨ ∃ e error, Dictionary.add e dictionary = (.error error, after)

omit [RunCursor C] [PostingSink S] in
/-- A list of entries that took none is as it was. -/
theorem TakesNone.eq {dictionary after : Array LexiconEntry} (h : TakesNone dictionary after) :
    after = dictionary := by
  obtain same | ⟨e, error, failed⟩ := h
  · exact same
  · cases failed

/-- Giving up the cursors of a group writes no term. -/
theorem Refuses.fail (h : Refuses m m') (e : Error) (leases : List (Lease C))
    {dictionary after : D} (none : TakesNone dictionary after) :
    let outcome := Merge.fail e leases m' after
    (∃ e, outcome.1 = .error e) ∧ Refuses m outcome.2.1 ∧ TakesNone dictionary outcome.2.2 :=
  ⟨⟨e, rfl⟩, h.congr ⟨rfl, rfl, rfl⟩ ⟨rfl, rfl, Lease.merged_abandonAll _ _⟩, none⟩

/-- Entering a term whose list was stored writes it if the dictionary takes its entry, even if its
cursors cannot be brought back, unless all numbers were given. -/
theorem enter_cases (term : Term) {statistics : TermStatistics} {pointer : BitPosition}
    (stored : (store term leases m.sink).1 = .ok pointer)
    (combined : statistics.documentFrequency.toNat = announced leases) (read : List (Lease C))
    (dictionary : D) :
    let outcome := enter term (leases.map Lease.runIndex) statistics pointer (announced leases)
      read { m with sink := (store term leases m.sink).2.2 } dictionary
    (∃ e, Writes leases e m outcome.2.1 ∧
        Dictionary.add e dictionary = (.ok (), outcome.2.2) ∧
        Returns outcome.1 m.progress.terms e) ∨
      (∃ e, outcome.1 = .error e) ∧ Refuses m outcome.2.1 ∧
        TakesNone dictionary outcome.2.2 := by
  let taken : Merge C S := { m with sink := (store term leases m.sink).2.2 }
  have refuses : Refuses m taken := ⟨.inr ⟨term, leases, rfl⟩, rfl, rfl⟩
  unfold enter
  by_cases full : UInt32.size ≤ m.progress.terms
  · rw [if_pos full]
    exact .inr (refuses.fail _ read (.inl rfl))
  · let id := UInt32.ofNat m.progress.terms
    let placed := { statistics with termId := some id, pointer := some pointer }
    let counted := taken.count ⟨term, id, leases.map Lease.runIndex, placed⟩ pointer
      (announced leases)
    have writes : Writes leases ⟨term, placed⟩ m counted := by
      have merged := merged_count taken ⟨term, id, leases.map Lease.runIndex, placed⟩ pointer
        (announced leases)
      obtain ⟨journal, same⟩ := count_eq taken ⟨term, id, leases.map Lease.runIndex, placed⟩
        pointer (announced leases)
      refine ⟨?_, ⟨pointer, stored, rfl⟩, Nat.lt_of_not_le full, rfl, combined, ?_, merged⟩
      · exact congrArg Merge.sink same
      · rw [show placed.documentFrequency.toNat = announced leases from combined]
        exact congrArg Merge.progress same
    have kept := Schedule.merged_requeueAll read counted.schedule
    rw [if_neg full]
    dsimp only
    split <;> rename_i added
    · exact .inr (refuses.fail _ read (.inr ⟨_, _, added⟩))
    · refine .inl ⟨⟨term, placed⟩, ?_⟩
      split <;> rename_i requeued <;> rw [requeued] at kept <;>
        refine ⟨writes.congr ⟨rfl, rfl, rfl⟩ ⟨rfl, rfl, kept⟩, added, ?_⟩
      · intro merged same
        cases same
        exact ⟨rfl, rfl⟩
      · intro merged same
        cases same

/-- Writing a group writes one term, or it fails and writes none. -/
theorem writeGroup_cases (first : Lease C) (rest : List (Lease C)) (m : Merge C S)
    (dictionary : D) :
    let outcome := writeGroup first rest m dictionary
    (∃ e, Writes (first :: rest) e m outcome.2.1 ∧
        Dictionary.add e dictionary = (.ok (), outcome.2.2) ∧
        Returns outcome.1 m.progress.terms e) ∨
      (∃ e, outcome.1 = .error e) ∧ Refuses m outcome.2.1 ∧
        TakesNone dictionary outcome.2.2 := by
  have unchanged : Refuses m m := ⟨.inl rfl, rfl, rfl⟩
  unfold writeGroup
  dsimp only
  split
  · exact .inr (unchanged.fail _ _ (.inl rfl))
  · split
    · exact .inr (unchanged.fail _ _ (.inl rfl))
    · rename_i statistics combined
      have combined := documentFrequency_combineAll combined
      split <;> rename_i result
      · have taken : Refuses m { m with sink := _ } :=
          ⟨.inr ⟨first.term, first :: rest, rfl⟩, rfl, rfl⟩
        rw [result] at taken
        exact .inr (taken.fail _ _ (.inl rfl))
      · rename_i pointer read sink
        have entered := enter_cases (m := m) first.term (by rw [result]) combined read
          dictionary
        rwa [result] at entered

/-- A step that succeeds has written the term on which the least group stands, and the dictionary
has taken its entry. -/
theorem step_eq_ok {dictionary dictionary' : D} {merged : MergedTerm}
    (stepped : m.step dictionary = (.ok merged, m', dictionary')) :
    ∃ first rest schedule, m.schedule.popGroup = some (first, rest, schedule) ∧
      Writes (first :: rest) merged.entry m m' ∧
      merged.termId = UInt32.ofNat m.progress.terms ∧
      Dictionary.add merged.entry dictionary = (.ok (), dictionary') := by
  unfold step at stepped
  split at stepped
  · cases stepped
  split at stepped
  · cases stepped
  rename_i first rest schedule popped
  have before : SameOutput { m with schedule } m :=
    ⟨rfl, rfl, congrArg (·.journal.merged) (Schedule.ledger_popGroup popped).symm⟩
  have outcome := writeGroup_cases first rest { m with schedule } dictionary
  split at stepped <;> rename_i result <;> rw [result] at outcome
  · cases stepped
    obtain ⟨e, writes, added, returns⟩ | ⟨⟨e, failed⟩, -⟩ := outcome
    · obtain ⟨rfl, number⟩ := returns merged rfl
      exact ⟨first, rest, schedule, popped, writes.congr before ⟨rfl, rfl, rfl⟩, number, added⟩
    · cases failed
  · split at stepped <;> cases stepped

end Writing

/-- What a step of a merge can come to. -/
inductive Steps (m : Merge C S) (dictionary : Array LexiconEntry) :
    Except Error MergedTerm × Merge C S × Array LexiconEntry → Prop
  /-- The merge goes no further. -/
  | spent (poisoned : m.isPoisoned = true) :
    Steps m dictionary (.error (.operation .mergeAfterFailure), m, dictionary)
  /-- All terms were written before. -/
  | complete (done : m.isDone = true) :
    Steps m dictionary (.error (.violation .mergeComplete), m, dictionary)
  /-- A term was written, whether or not its cursors could be brought back. -/
  | written {result : Except Error MergedTerm} {m' : Merge C S} {leases : List (Lease C)}
    {e : LexiconEntry} (sound : m.isPoisoned = false) (pending : m.isDone = false)
    (poisoned : m'.isPoisoned = !result.isOk) (writes : Writes leases e m m') :
    Steps m dictionary (result, m', dictionary.push e)
  /-- No term was written. -/
  | refused {e : Error} {m' : Merge C S} (sound : m.isPoisoned = false)
    (pending : m.isDone = false) (poisoned : m'.isPoisoned = true) (refuses : Refuses m m') :
    Steps m dictionary (.error e, m', dictionary)

/-- A group that could not be written to the end fails the step. -/
theorem steps_failed (sound : m.isPoisoned = false) (pending : m.isDone = false) {e : Error}
    {dictionary' : Array LexiconEntry} (poisoned : m₁'.isPoisoned = true)
    (outcome : (∃ e, Writes leases e m m' ∧ dictionary' = dictionary.push e) ∨
      Refuses m m' ∧ dictionary' = dictionary) (after : SameOutput m' m₁') :
    Steps m dictionary (.error e, m₁', dictionary') := by
  obtain ⟨e, writes, rfl⟩ | ⟨refuses, rfl⟩ := outcome
  · exact .written sound pending poisoned (writes.congr ⟨rfl, rfl, rfl⟩ after)
  · exact .refused sound pending poisoned (refuses.congr ⟨rfl, rfl, rfl⟩ after)

/-- Every step comes to one of these. -/
theorem steps_step (m : Merge C S) (dictionary : Array LexiconEntry) :
    Steps m dictionary (m.step dictionary) := by
  unfold step
  by_cases spent : m.isPoisoned = true
  · rw [if_pos spent]
    exact .spent spent
  · rw [if_neg spent]
    have sound := Bool.eq_false_iff.mpr spent
    split <;> rename_i popped
    · have done : m.isDone = true := by
        rw [isDone, sound, Schedule.isEmpty_iff.mpr (Schedule.toList_of_popGroup popped)]
        rfl
      exact .complete done
    · rename_i first rest schedule
      have pending : m.isDone = false := by
        rw [isDone, Bool.and_eq_false_iff]
        refine .inr (Bool.eq_false_iff.mpr fun empty => ?_)
        rw [Schedule.popGroup_eq_none_iff.mpr (Schedule.toList_of_isEmpty empty)] at popped
        cases popped
      have before : SameOutput { m with schedule } m :=
        ⟨rfl, rfl, congrArg (·.journal.merged) (Schedule.ledger_popGroup popped).symm⟩
      have outcome := writeGroup_cases first rest { m with schedule } dictionary
      split <;> rename_i result <;> rw [result] at outcome
      · obtain ⟨e, writes, added, -⟩ | ⟨⟨e, failed⟩, _⟩ := outcome
        · have poisoned := (isPoisoned_writeGroup result).trans sound
          cases added
          exact .written sound pending poisoned (writes.congr before ⟨rfl, rfl, rfl⟩)
        · cases failed
      · rename_i m' dictionary'
        have kept := Schedule.merged_releaseAll m'.schedule
        have outcome : (∃ e, Writes (first :: rest) e m m' ∧ dictionary' = dictionary.push e) ∨
            Refuses m m' ∧ dictionary' = dictionary := by
          obtain ⟨e, writes, added, -⟩ | ⟨_, refuses, none⟩ := outcome
          · cases added
            exact .inl ⟨e, writes.congr before ⟨rfl, rfl, rfl⟩, rfl⟩
          · exact .inr ⟨refuses.congr before ⟨rfl, rfl, rfl⟩, none.eq⟩
        split <;> rename_i released <;> rw [released] at kept
        · exact steps_failed sound pending rfl outcome ⟨rfl, rfl, kept⟩
        · refine steps_failed sound pending rfl outcome ⟨rfl, rfl, ?_⟩
          rw [← kept]
          simp [Schedule.tell, Event.merged]

end Merge

end IndexMerge
