import IndexMerge.Proofs.Merge.Files
import IndexMerge.Proofs.Merge.Retained
import IndexMerge.Proofs.Run.Union
import IndexMerge.Proofs.Schedule.Untrusted

/-!
# Merging any files

Nothing is assumed of the files that are merged. Whatever they hold, and wherever a merge of them
fails, its dictionary can be vouched for (`Vouched`): terms ascend and are numbered, and the list of
each has as many postings as its statistics say, with ascending documents, which lie in the ranges
that the headers of the merged runs give (`vouched_of_files`). Every step keeps this
(`Trusted.step`).
-/

namespace IndexMerge

variable {S : Type} [PostingSink S] {store : FileStore} {paths : Array String}

/-- A posting lies in the range of documents that the header of one of these runs gives. -/
def InRange (store : FileStore) (paths : Array String) (runs : List Nat) (p : Posting) : Prop :=
  ∃ run ∈ runs, ∃ path header, paths[run]? = some path ∧
    RunFiles.readHeader store path = .ok header ∧ header.firstDoc ≤ p.docId ∧
    p.docId ≤ header.lastDoc

/-- A list of postings of these runs has the length that the statistics of an entry say. -/
structure LexiconEntry.Describes (store : FileStore) (paths : Array String) (runs : List Nat)
    (e : LexiconEntry) (list : List Posting) : Prop where
  length_eq : list.length = e.statistics.documentFrequency.toNat
  ascending : isAscending (list.map Posting.docId) = true
  ranges : ∀ p ∈ list, InRange store paths runs p

/-- What can be said of a dictionary, where the lists that are stored are known and a journal tells
which runs were merged: terms ascend and are numbered in this order, and the pointer of each leads
to a list that its entry describes. -/
structure Vouched (store : FileStore) (paths : Array String)
    (stored : BitPosition → List Posting → Prop) (journal : Journal)
    (dictionary : Array LexiconEntry) : Prop where
  terms : Term.Ascending (dictionary.toList.map LexiconEntry.term)
  merged : journal.merged.map (·.1) = dictionary.toList.map LexiconEntry.term
  numbers : ∀ k (hk : k < dictionary.size), ∃ id, dictionary[k].statistics.termId = some id ∧
    id.toNat = k
  lists : ∀ k (hk : k < dictionary.size), ∃ runs pointer list,
    journal.merged[k]? = some (dictionary[k].term, runs) ∧
    dictionary[k].statistics.pointer = some pointer ∧ stored pointer list ∧
    dictionary[k].Describes store paths runs list

namespace Vouched

variable {stored stored' : BitPosition → List Posting → Prop} {journal journal' : Journal}
  {dictionary : Array LexiconEntry}

theorem empty (unmerged : journal.merged = []) : Vouched store paths stored journal #[] := by
  constructor <;> simp [unmerged]

/-- A dictionary is still vouched for when more is stored. -/
theorem mono (h : Vouched store paths stored journal dictionary)
    (kept : ∀ place list, stored place list → stored' place list)
    (merged : journal'.merged = journal.merged) :
    Vouched store paths stored' journal' dictionary := by
  refine ⟨h.terms, by rw [merged, h.merged], h.numbers, fun k hk => ?_⟩
  obtain ⟨runs, pointer, list, told, place, here, describes⟩ := h.lists k hk
  exact ⟨runs, pointer, list, by rw [merged, told], place, kept pointer list here, describes⟩

/-- An entry behind all others whose list is stored is vouched for. -/
theorem push (h : Vouched store paths stored journal dictionary) {e : LexiconEntry} {id : UInt32}
    {pointer : BitPosition} {runs : List Nat} {list : List Posting}
    (follows : ∀ term, dictionary.back?.map LexiconEntry.term = some term →
      term.precedes e.term = true)
    (merged : journal'.merged = journal.merged ++ [(e.term, runs)])
    (termId : e.statistics.termId = some id) (number : id.toNat = dictionary.size)
    (place : e.statistics.pointer = some pointer) (here : stored pointer list)
    (describes : e.Describes store paths runs list) :
    Vouched store paths stored journal' (dictionary.push e) := by
  have length : journal.merged.length = dictionary.size := by
    have lengths := congrArg List.length h.merged
    rwa [List.length_map, List.length_map, Array.length_toList] at lengths
  refine ⟨?_, ?_, fun k hk => ?_, fun k hk => ?_⟩
  · rw [Array.toList_push, List.map_append]
    refine h.terms.concat fun last found => follows last ?_
    rwa [List.getLast?_map, Array.getLast?_toList] at found
  · rw [merged, List.map_append, h.merged, Array.toList_push, List.map_append]
    rfl
  · rw [Array.getElem_push]
    split
    · exact h.numbers k ‹_›
    · rw [Array.size_push] at hk
      exact ⟨id, termId, by omega⟩
  · rw [Array.getElem_push, merged]
    split
    · rename_i before
      rw [List.getElem?_append_left (by omega)]
      exact h.lists k before
    · rw [Array.size_push] at hk
      rw [List.getElem?_append_right (by omega), length, show k - dictionary.size = 0 by omega]
      exact ⟨runs, pointer, list, rfl, place, here, describes⟩

end Vouched

namespace Merge

section Storing

variable {retention : Retention S} {term : Term} {leases : List (Lease StoredCursor)} {sink : S}

/-- Storing postings leaves the cursors where they stand. -/
theorem standsOn_store (stand : ∀ lease ∈ leases, lease.StandsOn store paths term) (u : Term)
    (sink : S) : ∀ lease ∈ (Merge.store u leases sink).2.1, lease.StandsOn store paths term := by
  intro lease member
  have kept := map_store Lease.standing_openPostings Lease.standing_next u leases sink
  have member := List.mem_map_of_mem (f := Lease.standing) member
  rw [kept] at member
  obtain ⟨before, listed, same⟩ := List.mem_map.mp member
  exact (stand before listed).of_standing same.symm

/-- Postings that are read from cursors lie in the ranges of their runs. -/
theorem inRange_of_yields (stand : ∀ lease ∈ leases, lease.StandsOn store paths term)
    {source : CountedPostings (PostingSequence (Lease StoredCursor))} {postings : List Posting}
    (yields : PostingSource.Yields
      (⟨.ofList (leases.map Lease.openPostings), 0⟩ :
        CountedPostings (PostingSequence (Lease StoredCursor))) postings source) :
    ∀ p ∈ postings, InRange store paths (leases.map Lease.runIndex) p := by
  intro p member
  have given := (CountedPostings.mayGive
    (PostingSequence.mayGive Lease.mayGive_covers)).of_yields yields p member
  obtain ⟨opened, listed, low, high, _⟩ := given
  rw [PostingSequence.sources_ofList] at listed
  obtain ⟨lease, here, rfl⟩ := List.mem_map.mp listed
  obtain ⟨number, path, found, read⟩ := (stand lease here).stems
  refine ⟨lease.runIndex, List.mem_map_of_mem here, path, lease.cursor.header, ?_, read, low,
    high⟩
  rw [number, found]

/-- A list that was stored has as many postings as the cursors announced, and these lie in the
ranges of their runs. -/
theorem list_of_store (works : retention.Works sink)
    (stand : ∀ lease ∈ leases, lease.StandsOn store paths term) {u : Term}
    {pointer : BitPosition} (stored : (Merge.store u leases sink).1 = .ok pointer) :
    ∃ list, retention.Retains (Merge.store u leases sink).2.2 pointer list ∧
      list.length = announced leases ∧ isAscending (list.map Posting.docId) = true ∧
      ∀ p ∈ list, InRange store paths (leases.map Lease.runIndex) p := by
  obtain ⟨list, source, yields, retained, length, ascending⟩ := yields_of_store works stored
  exact ⟨list, retained, length, ascending, inRange_of_yields stand yields⟩

end Storing

section Writing

variable {retention : Retention S} {m : Merge StoredCursor S} {dictionary : Array LexiconEntry}
  {term : Term} {leases : List (Lease StoredCursor)}

/-- What holds when a term was to be written, whether or not it was: the dictionary is vouched for.
If the term was written, the cursors wait behind it and it is counted. -/
structure Outcome (store : FileStore) (paths : Array String) (retention : Retention S)
    (result : Except Error MergedTerm × Merge StoredCursor S × Array LexiconEntry) : Prop where
  works : retention.Works result.2.1.sink
  vouched : Vouched store paths (retention.Retains result.2.1.sink) result.2.1.schedule.journal
    result.2.2
  waiting : ∀ merged, result.1 = .ok merged → Schedule.Waiting store paths
    (result.2.2.back?.map LexiconEntry.term) result.2.1.schedule.heap
  counted : ∀ merged, result.1 = .ok merged → result.2.1.progress.terms = result.2.2.size

/-- Giving cursors up changes nothing of what is vouched for. -/
theorem outcome_fail (works : retention.Works m.sink)
    (vouched : Vouched store paths (retention.Retains m.sink) m.schedule.journal dictionary)
    (e : Error) (leases : List (Lease StoredCursor)) :
    Outcome store paths retention (fail e leases m dictionary) := by
  refine ⟨works, ?_, fun merged done => ?_, fun merged done => ?_⟩
  · exact vouched.mono (fun _ _ kept => kept) (Lease.merged_abandonAll _ _)
  · cases done
  · cases done

/-- A term that is entered behind all others with a list that describes it is vouched for. -/
theorem outcome_enter (works : retention.Works m.sink)
    (vouched : Vouched store paths (retention.Retains m.sink) m.schedule.journal dictionary)
    (counted : m.progress.terms = dictionary.size)
    (follows : ∀ last, dictionary.back?.map LexiconEntry.term = some last →
      last.precedes term = true)
    (waiting : Schedule.Waiting store paths (some term) m.schedule.heap)
    (stand : ∀ lease ∈ leases, lease.StandsOn store paths term) {runs : List Nat}
    {statistics : TermStatistics} {pointer : BitPosition} {list : List Posting} (postings : Nat)
    (here : retention.Retains m.sink pointer list)
    (describes : LexiconEntry.Describes store paths runs ⟨term, statistics⟩ list) :
    Outcome store paths retention
      (enter term runs statistics pointer postings leases m dictionary) := by
  unfold enter
  by_cases full : UInt32.size ≤ m.progress.terms
  · rw [if_pos full]
    exact outcome_fail works vouched _ leases
  · rw [if_neg full]
    let id := UInt32.ofNat m.progress.terms
    let placed := { statistics with termId := some id, pointer := some pointer }
    let next := m.count ⟨term, id, runs, placed⟩ pointer postings
    have sink : next.sink = m.sink := sink_count m _ pointer postings
    have heap : next.schedule.heap = m.schedule.heap := heap_count m _ pointer postings
    have terms : next.progress.terms = m.progress.terms + 1 := terms_count m _ pointer postings
    rw [← sink] at works vouched here
    rw [← heap] at waiting
    have number : id.toNat = dictionary.size := by
      rw [← counted]
      exact UInt32.toNat_ofNat_of_lt' (Nat.lt_of_not_le full)
    have pushed : Vouched store paths (retention.Retains next.sink) next.schedule.journal
        (dictionary.push ⟨term, placed⟩) :=
      vouched.push follows (merged_count m _ pointer postings) rfl number rfl here
        ⟨describes.length_eq, describes.ascending, describes.ranges⟩
    have back := waiting.requeueAll stand
    have kept := pushed.mono (fun _ _ same => same)
      (Schedule.merged_requeueAll leases next.schedule)
    have added : Dictionary.add ⟨term, placed⟩ dictionary =
        (.ok (), dictionary.push ⟨term, placed⟩) := rfl
    dsimp only
    rw [added]
    dsimp only
    split <;> rename_i requeued <;> rw [requeued] at back kept
    · refine ⟨works, kept, fun _ _ => ?_, fun _ _ => ?_⟩
      · dsimp only
        rw [Array.back?_push]
        exact back
      · dsimp only
        rw [terms, counted, Array.size_push]
    · refine ⟨works, kept, fun _ done => ?_, fun _ done => ?_⟩ <;> cases done

/-- What holds of a merge and its dictionary between steps: the dictionary is vouched for, and the
cursors wait behind it. Terms are counted until a step fails. -/
structure Trusted (store : FileStore) (paths : Array String) (retention : Retention S)
    (m : Merge StoredCursor S) (dictionary : Array LexiconEntry) : Prop where
  works : retention.Works m.sink
  vouched : Vouched store paths (retention.Retains m.sink) m.schedule.journal dictionary
  waiting : Schedule.Waiting store paths (dictionary.back?.map LexiconEntry.term) m.schedule.heap
  counted : m.isPoisoned = false → m.progress.terms = dictionary.size

/-- Writing a group that stands on a term behind all others is vouched for, even if it fails. -/
theorem outcome_writeGroup {first : Lease StoredCursor} {rest : List (Lease StoredCursor)}
    (works : retention.Works m.sink)
    (vouched : Vouched store paths (retention.Retains m.sink) m.schedule.journal dictionary)
    (counted : m.progress.terms = dictionary.size)
    (follows : ∀ last, dictionary.back?.map LexiconEntry.term = some last →
      last.precedes first.term = true)
    (waiting : Schedule.Waiting store paths (some first.term) m.schedule.heap)
    (stand : ∀ lease ∈ first :: rest, lease.StandsOn store paths first.term) :
    Outcome store paths retention (writeGroup first rest m dictionary) := by
  unfold writeGroup
  dsimp only
  split
  · exact outcome_fail works vouched _ _
  · split
    · exact outcome_fail works vouched _ _
    · rename_i statistics combined
      have count := documentFrequency_combineAll combined
      obtain ⟨still, kept⟩ := retains_store works first.term (first :: rest)
      have stand' := standsOn_store stand first.term m.sink
      have vouched' := vouched.mono kept rfl
      have stored := @list_of_store _ _ _ _ _ _ _ _ works stand first.term
      split <;> rename_i result <;> rw [result] at still stand' vouched' stored
      · exact outcome_fail (m := { m with sink := _ }) still vouched' _ _
      · obtain ⟨list, here, length, ascending, ranges⟩ := stored rfl
        exact outcome_enter (m := { m with sink := _ }) still vouched' counted follows waiting
          stand' _ here ⟨by rw [length]; exact count.symm, ascending, ranges⟩

namespace Trusted

/-- A step, whether or not it succeeds, keeps to what holds between steps. -/
theorem step (h : Trusted store paths retention m dictionary) :
    Trusted store paths retention (m.step dictionary).2.1 (m.step dictionary).2.2 := by
  unfold Merge.step
  by_cases poisoned : m.isPoisoned = true
  · rw [if_pos poisoned]
    exact h
  · rw [if_neg poisoned]
    split
    · exact h
    · rename_i first rest schedule popped
      have ⟨stand, follows, waiting, ledger⟩ := h.waiting.popGroup popped
      have vouched := h.vouched.mono (fun _ _ kept => kept) (congrArg (·.journal.merged) ledger)
      have outcome := outcome_writeGroup (m := { m with schedule }) h.works vouched
        (h.counted (Bool.eq_false_iff.mpr poisoned)) follows waiting stand
      split <;> rename_i written <;> rw [written] at outcome
      · exact ⟨outcome.works, outcome.vouched, outcome.waiting _ rfl,
          fun _ => outcome.counted _ rfl⟩
      · rename_i m' dictionary'
        have gone := Schedule.merged_releaseAll m'.schedule
        have unscheduled : Schedule.Waiting store paths
            (dictionary'.back?.map LexiconEntry.term) (Schedule.releaseAll m'.schedule).2.heap :=
          .releaseAll m'.schedule
        have vouched := outcome.vouched.mono (fun _ _ kept => kept) gone
        split <;> rename_i released <;> rw [released] at unscheduled vouched
        · exact ⟨outcome.works, vouched, unscheduled, nofun⟩
        · refine ⟨outcome.works, vouched.mono (fun _ _ kept => kept) ?_, unscheduled, nofun⟩
          simp [Schedule.tell, Event.merged]

/-- Giving a merge up keeps to what holds between steps. -/
theorem abort (h : Trusted store paths retention m dictionary) :
    Trusted store paths retention (Merge.abort m).2 dictionary :=
  ⟨h.works, h.vouched.mono (fun _ _ kept => kept) (Schedule.merged_releaseAll m.schedule),
    .releaseAll m.schedule, nofun⟩

/-- A merge that is started, whether or not this succeeds, has an empty dictionary. -/
theorem start {sink : S} (works : retention.Works sink) (count : Nat) (verify : Bool)
    (interval : Nat) : Trusted store paths retention
      (Merge.start count (RunFiles.start store paths verify) sink interval).2.2 #[] := by
  have opened := Schedule.opened_start count (RunFiles.start store paths verify)
  unfold Merge.start
  split <;> rename_i result <;> rw [result] at opened
  · exact ⟨works, .empty opened.unmerged, opened.waiting, nofun⟩
  · refine ⟨works, .empty ?_, opened.waiting, fun _ => rfl⟩
    simp [Schedule.tell, Event.merged, opened.unmerged]

/-- Any calls of a merge that was started keep to what holds between steps. -/
theorem perform {sink : S} (works : retention.Works sink) (store : FileStore)
    (paths : Array String) (verify : Bool) (count interval : Nat) (calls : List Call) :
    let state := Merge.perform calls
      (Merge.start count (RunFiles.start store paths verify) sink interval).2.2
      (#[] : Array LexiconEntry)
    Trusted store paths retention state.1 state.2 := by
  refine perform_keeps (P := Trusted store paths retention) ?_ ?_ calls _ _ ?_
  · intro m dictionary
    exact step
  · intro m dictionary
    exact abort
  · exact start works count verify interval

end Trusted

end Writing

end Merge

/-- Whatever the files hold that are merged, and whichever calls were made, the dictionary is
vouched for, whether or not the last call failed: its terms ascend and are numbered, and at the
pointer of each is a list of just as many postings as its statistics say, with ascending documents
in the ranges of the runs that the term was merged from. This holds of lists that are kept in
memory, and of lists that are read back from what was written to a sink that never fails, once the
writer is closed. -/
theorem vouched_of_files {W : Type} [ByteSink W] [FaithfulSink W] {sink : W} (fresh : Fresh sink)
    (store : FileStore) (paths : Array String) (verifyRanges : Bool) (count interval : Nat)
    (calls : List Merge.Call) (layout : Layout) (capacity : Nat) :
    (let (m, dictionary) := Merge.perform calls
        (Merge.start count (RunFiles.start store paths verifyRanges) ListSink.empty interval).2.2
        (#[] : Array LexiconEntry)
     Vouched store paths (fun pointer list => m.sink.get? pointer = some list)
        m.schedule.journal dictionary) ∧
    (let (m, dictionary) := Merge.perform calls
        (Merge.start count (RunFiles.start store paths verifyRanges)
          (PostingWriter.start capacity sink layout) interval).2.2 (#[] : Array LexiconEntry)
     ∃ closed, PostingSink.close m.sink = (.ok (), closed) ∧
        Vouched store paths (fun pointer list =>
          readPostings (FaithfulSink.content closed.bits.sink).toArray pointer list.length layout =
            .ok list) m.schedule.journal dictionary) := by
  refine ⟨?_, ?_⟩
  · have works : ListSink.retention.Works .empty := trivial
    exact (Merge.Trusted.perform works store paths verifyRanges count interval calls).vouched
  · have works := @PostingWriter.works_start _ _ _ layout _ capacity fresh
    have all := Merge.Trusted.perform works store paths verifyRanges count interval calls
    obtain ⟨closed, done, read⟩ := PostingWriter.readPostings_of_retains all.works
    exact ⟨closed, done, all.vouched.mono read rfl⟩

/-- The first step of a merge of the damaged files succeeds, and the second fails. -/
theorem vouched_of_files_damaged :
    let (m, dictionary) := Merge.perform [.step, .step]
      (Merge.start 2 (RunFiles.start damagedFiles #["a", "b"] true)
        (PostingWriter.start 1 (#[] : Array UInt8) ⟨0, false⟩) 0).2.2 (#[] : Array LexiconEntry)
    dictionary.size = 1 ∧ ∃ closed, PostingSink.close m.sink = (.ok (), closed) ∧
      Vouched damagedFiles #["a", "b"] (fun pointer list =>
        readPostings (FaithfulSink.content closed.bits.sink).toArray pointer list.length
          ⟨0, false⟩ = .ok list) m.schedule.journal dictionary :=
  ⟨by decide +kernel, (vouched_of_files fresh_array damagedFiles #["a", "b"] true 2 0 [.step, .step]
    ⟨0, false⟩ 1).2⟩

end IndexMerge
