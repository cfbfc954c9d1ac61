import IndexMerge.Merge.Basic

/-!
# Merging to the end

Repeats the step of a merge until all terms are written. A step that succeeds consumes at least one
entry of a scheduled cursor (`cost_step`), so a merge ends after at most as many steps as its
cursors have entries.
-/

namespace IndexMerge

namespace Merge

variable {F C S D : Type} [RunCursor C]

theorem cost_count (m : Merge C S) (merged : MergedTerm) (pointer : BitPosition)
    (postings : Nat) : (m.count merged pointer postings).schedule.cost = m.schedule.cost := by
  unfold count
  dsimp only
  split <;> rfl

variable [Dictionary D]

theorem cost_enter {term : Term} {runs : List Nat} {statistics : TermStatistics}
    {pointer : BitPosition} {postings : Nat} {leases : List (Lease C)} {m m' : Merge C S}
    {dictionary dictionary' : D} {merged : MergedTerm}
    (h : enter term runs statistics pointer postings leases m dictionary =
      (.ok merged, m', dictionary')) :
    m'.schedule.cost + leases.length ≤ m.schedule.cost + total (leases.map Lease.cost) := by
  unfold enter at h
  split at h
  · cases h
  · dsimp only at h
    split at h
    · cases h
    · split at h
      · rename_i requeued
        cases h
        have := Schedule.cost_requeueAll requeued
        rwa [cost_count] at this
      · cases h

variable [PostingSink S]

/-- What asking a lease for postings does not change, storing its postings does not change. -/
theorem map_store {β : Type} {f : Lease C → β} (opened : ∀ lease, f lease.openPostings = f lease)
    (asked : ∀ lease, f (PostingSource.next lease).2 = f lease) (term : Term)
    (leases : List (Lease C)) (sink : S) : (store term leases sink).2.1.map f = leases.map f := by
  let start : CountedPostings (PostingSequence (Lease C)) :=
    ⟨.ofList (leases.map Lease.openPostings), 0⟩
  have kept := PostingSink.write_source
    (P := fun s : CountedPostings (PostingSequence (Lease C)) =>
      s.inner.sources.map f = leases.map f)
    (fun s h => by
      show ((CountedPostings.next s).2.inner).sources.map f = _
      rw [CountedPostings.inner_next]
      exact (PostingSequence.map_sources_next asked s.inner).trans h)
    start sink (by
      simp only [start, PostingSequence.sources_ofList, List.map_map]
      exact List.map_congr_left fun lease _ => opened lease)
  unfold store
  dsimp only
  split
  · rename_i written
    rwa [written] at kept
  · rename_i written
    rw [written] at kept
    split <;> exact kept

theorem costs_store (term : Term) (leases : List (Lease C)) (sink : S) :
    (store term leases sink).2.1.map Lease.cost = leases.map Lease.cost :=
  map_store (fun lease => congrArg (· + 1) (RunCursor.entriesLeft_openPostings lease.cursor))
    (fun lease => congrArg (· + 1) (RunCursor.entriesLeft_nextPosting lease.cursor))
    term leases sink

theorem cost_writeGroup {first : Lease C} {rest : List (Lease C)} {m m' : Merge C S}
    {dictionary dictionary' : D} {merged : MergedTerm}
    (h : writeGroup first rest m dictionary = (.ok merged, m', dictionary')) :
    m'.schedule.cost < m.schedule.cost + total ((first :: rest).map Lease.cost) := by
  unfold writeGroup at h
  dsimp only at h
  split at h
  · cases h
  · split at h
    · cases h
    · split at h
      · cases h
      · rename_i stored sink written
        have costs := costs_store first.term (first :: rest) m.sink
        rw [written] at costs
        have lengths := congrArg List.length costs
        have entered := cost_enter h
        dsimp only at costs
        rw [costs] at entered
        simp only [List.length_map, List.length_cons] at lengths
        simp only at entered
        omega

/-- A step that succeeds consumes an entry. -/
theorem cost_step {m m' : Merge C S} {dictionary dictionary' : D} {merged : MergedTerm}
    (h : m.step dictionary = (.ok merged, m', dictionary')) :
    m'.schedule.cost < m.schedule.cost := by
  unfold step at h
  split at h
  · cases h
  · split at h
    · cases h
    · rename_i popped
      have := Schedule.cost_popGroup popped
      split at h
      · rename_i written
        cases h
        have := cost_writeGroup written
        simp only at this
        omega
      · split at h <;> cases h

/-- Writes terms, behind those that are listed, until all are written or a step fails. -/
def rest (m : Merge C S) (dictionary : D) (terms : Array MergedTerm) :
    Except Error Unit × Array MergedTerm × Merge C S × D :=
  if m.isDone then (.ok (), terms, m, dictionary)
  else match _h : m.step dictionary with
    | (.ok merged, m', dictionary') => rest m' dictionary' (terms.push merged)
    | (.error e, m', dictionary') => (.error e, terms, m', dictionary')
termination_by m.schedule.cost
decreasing_by exact cost_step _h

end Merge

/-- Merges the first `count` runs. A merge that fails is dropped. -/
def mergeRuns {F C S D : Type} [RunCursor C] [PostingSink S] [Dictionary D] [RunOpener F C]
    (count : Nat) (opener : F) (sink : S) (dictionary : D) :
    Except Error Progress × Merge C S × D :=
  match Merge.start count opener sink 0 with
  | (.error e, _, m) => (.error e, m, dictionary)
  | (.ok (), _, m) =>
    match m.rest dictionary #[] with
    | (.error e, _, m, dictionary) => (.error e, m.drop, dictionary)
    | (.ok (), _, m, dictionary) =>
      let (result, m) := Merge.finish m
      (result, m, dictionary)

end IndexMerge
