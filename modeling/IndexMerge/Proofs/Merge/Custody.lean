import IndexMerge.Merge.Loop
import IndexMerge.Proofs.Merge.Calls
import IndexMerge.Proofs.Posting.Given
import IndexMerge.Proofs.Schedule.Custody
import IndexMerge.Proofs.Schedule.Ledger

/-!
# Custody of the cursors of a merge

Every call of a merge keeps custody of its cursors, and a merge that goes no further holds none. So
a merge closes every cursor that it was given exactly once (`cursors_closed_once`), and so does a
merge to the end (`closed_mergeRuns`).
-/

namespace IndexMerge

variable {F C S D : Type} [RunCursor C]

namespace Merge

variable {given : List (Nat × C)} {m : Merge C S}

theorem custody_count {held : List (Lease C)} (h : m.schedule.Custody given held)
    (merged : MergedTerm) (pointer : BitPosition) (postings : Nat) :
    (m.count merged pointer postings).schedule.Custody given held := by
  unfold count
  dsimp only
  split
  · exact (h.tell _).tell _
  · exact h.tell _

/-- A merge that goes no further has nothing scheduled. -/
def Spent (m : Merge C S) : Prop := m.isPoisoned = true → m.schedule.heap.toList = []

section Entering

variable [Dictionary D] {term : Term} {runs : List Nat} {statistics : TermStatistics}
  {pointer : BitPosition} {postings : Nat} {leases : List (Lease C)}

theorem custody_enter (h : m.schedule.Custody given leases) (dictionary : D) :
    (enter term runs statistics pointer postings leases m dictionary).2.1.schedule.Custody
      given [] := by
  have h : m.schedule.Custody given (leases ++ []) := by rwa [List.append_nil]
  unfold enter
  split
  · exact h.abandon
  · dsimp only
    split
    · exact h.abandon
    · have counted := custody_count h
        ⟨term, UInt32.ofNat m.progress.terms, runs,
          { statistics with
            termId := some (UInt32.ofNat m.progress.terms), pointer := some pointer }⟩
        pointer postings
      have requeued := counted.requeueAll
      split <;> rename_i result <;> rwa [result] at requeued

theorem isPoisoned_enter {m' : Merge C S} {dictionary dictionary' : D} {merged : MergedTerm}
    (h : enter term runs statistics pointer postings leases m dictionary =
      (.ok merged, m', dictionary')) : m'.isPoisoned = m.isPoisoned := by
  unfold enter at h
  split at h
  · cases h
  · dsimp only at h
    split at h
    · cases h
    · split at h <;> cases h
      unfold count
      dsimp only
      split <;> rfl

end Entering

variable [PostingSink S]

/-- Storing postings moves no lease. -/
theorem positions_store (term : Term) (leases : List (Lease C)) (sink : S) :
    (store term leases sink).2.1.map Lease.position = leases.map Lease.position :=
  map_store (fun _ => rfl) (fun _ => rfl) term leases sink

/-- What asking leases for postings keeps, storing their postings keeps. -/
theorem forall_store {P : Lease C → Prop} (opened : ∀ lease, P lease → P lease.openPostings)
    (asked : ∀ lease, P lease → P (PostingSource.next lease).2) {leases : List (Lease C)}
    (each : ∀ lease ∈ leases, P lease) (term : Term) (sink : S) :
    ∀ lease ∈ (store term leases sink).2.1, P lease := by
  let row : CountedPostings (PostingSequence (Lease C)) :=
    ⟨.ofList (leases.map Lease.openPostings), 0⟩
  have kept := PostingSink.write_source
    (P := fun t : CountedPostings (PostingSequence (Lease C)) => ∀ lease ∈ t.inner.sources, P lease)
    (fun t h => by
      show ∀ lease ∈ ((CountedPostings.next t).2.inner).sources, P lease
      rw [CountedPostings.inner_next]
      exact PostingSequence.forall_sources_next asked t.inner h)
    row sink (by
      intro lease member
      rw [PostingSequence.sources_ofList] at member
      obtain ⟨lease, held, rfl⟩ := List.mem_map.mp member
      exact opened lease (each lease held))
  unfold store
  dsimp only
  split
  · rename_i written
    rwa [written] at kept
  · rename_i written
    rw [written] at kept
    split <;> exact kept

/-- Storing postings closes no cursor. -/
theorem custody_store {leases : List (Lease C)} (h : m.schedule.Custody given leases) (term : Term)
    (sink : S) : m.schedule.Custody given (store term leases sink).2.1 := by
  refine h.move (Schedule.heldAt_map _ _ (positions_store term leases sink)) ?_
  apply forall_store (P := fun lease => CameFrom given 0 lease.place) _ _ h.held
  · rintro lease ⟨cursor, member, became⟩
    exact ⟨cursor, member, became.openPostings⟩
  · rintro lease ⟨cursor, member, became⟩
    exact ⟨cursor, member, became.nextPosting⟩

/-- The cursors that a merge holds between its steps. -/
def held (m : Merge C S) : List (Lease C) := m.schedule.heap.toList

/-- An end closes the cursors that are left, each once. If one of them cannot be closed, the first
such failure is given, and the sink stays as it is. Otherwise it comes to what closing the sink
comes to. -/
theorem finish_eq (m : Merge C S) : ∃ schedule : Schedule C,
    schedule.heap.toList = [] ∧ schedule.ledger.given = m.schedule.ledger.given ∧
      schedule.ledger.left = m.schedule.ledger.left ++ m.held.map Lease.closed ∧
      finish m = match m.held.findSome? Lease.closeFault? with
        | some e => (.error e, { m with schedule })
        | none => ((PostingSink.close m.sink).1.map fun _ => m.progress,
          { m with schedule, sink := (PostingSink.close m.sink).2 }) := by
  unfold finish
  by_cases empty : m.schedule.isEmpty = true
  · have unscheduled : m.held = [] := Schedule.toList_of_isEmpty empty
    rw [if_pos empty, unscheduled, List.map_nil, List.append_nil, List.findSome?_nil]
    dsimp only
    rcases PostingSink.close m.sink with ⟨e | _, sink⟩
    · exact ⟨m.schedule, unscheduled, rfl, rfl, rfl⟩
    · exact ⟨m.schedule.tell _, unscheduled, Ledger.given_tell _ _, Ledger.left_tell _ _, rfl⟩
  · let told := m.tell (.mergeEndedEarly m.schedule.size)
    let ledger := (Lease.releaseAll m.held told.schedule.ledger).2
    have scheduled : told.schedule.heap.toList = m.held := rfl
    have result := Schedule.releaseAll_eq told.schedule
    obtain ⟨given, left⟩ := Lease.ledger_releaseAll m.held told.schedule.ledger
    have given : ledger.given = m.schedule.ledger.given := given.trans (Ledger.given_tell _ _)
    have left : ledger.left = m.schedule.ledger.left ++ m.held.map Lease.closed :=
      left.trans (congrArg (· ++ _) (Ledger.left_tell _ _))
    rw [scheduled] at result
    rw [if_neg empty]
    dsimp only
    rw [result]
    cases m.held.findSome? Lease.closeFault? with
    | some e => exact ⟨⟨.empty, ledger⟩, rfl, given, left, rfl⟩
    | none =>
      have same : told.sink = m.sink := rfl
      dsimp only
      rw [same]
      rcases PostingSink.close m.sink with ⟨e | _, sink⟩
      · exact ⟨⟨.empty, ledger⟩, rfl, given, left, rfl⟩
      · exact ⟨Schedule.tell ⟨.empty, ledger⟩ _, rfl, (Ledger.given_tell _ _).trans given,
          (Ledger.left_tell _ _).trans left, rfl⟩

/-- If a cursor that is left cannot be closed, the first such failure is all that comes of it. -/
theorem finish_of_fault {e : Error} (fault : m.held.findSome? Lease.closeFault? = some e) :
    (finish m).1 = .error e ∧ (finish m).2.sink = m.sink := by
  obtain ⟨schedule, -, -, -, ended⟩ := finish_eq m
  rw [ended, fault]
  exact ⟨rfl, rfl⟩

/-- If the cursors that are left can be closed, the end comes to what closing the sink comes to. -/
theorem finish_of_sound (sound : m.held.findSome? Lease.closeFault? = none) :
    (finish m).1 = (PostingSink.close m.sink).1.map (fun _ => m.progress) ∧
      (finish m).2.sink = (PostingSink.close m.sink).2 := by
  obtain ⟨schedule, -, -, -, ended⟩ := finish_eq m
  rw [ended, sound]
  exact ⟨rfl, rfl⟩

/-- An end closes the cursors that are left, each once, and opens none. -/
theorem schedule_finish (m : Merge C S) : (finish m).2.schedule.heap.toList = [] ∧
    (finish m).2.schedule.ledger.given = m.schedule.ledger.given ∧
    (finish m).2.schedule.ledger.left =
      m.schedule.ledger.left ++ m.held.map Lease.closed := by
  obtain ⟨schedule, unscheduled, given, left, ended⟩ := finish_eq m
  rw [ended]
  cases m.held.findSome? Lease.closeFault? with
  | some e => exact ⟨unscheduled, given, left⟩
  | none => exact ⟨unscheduled, given, left⟩

theorem custody_finish (h : m.schedule.Custody given []) :
    (finish m).2.schedule.ClosedAll given := by
  obtain ⟨unscheduled, same, left⟩ := schedule_finish m
  exact (h.closeScheduled unscheduled same left).closedAll unscheduled

variable [Dictionary D]

theorem custody_writeGroup {first : Lease C} {rest : List (Lease C)}
    (h : m.schedule.Custody given (first :: rest)) (dictionary : D) :
    (writeGroup first rest m dictionary).2.1.schedule.Custody given [] := by
  have held : m.schedule.Custody given (first :: rest ++ []) := by rwa [List.append_nil]
  unfold writeGroup
  dsimp only
  split
  · exact held.abandon
  · split
    · exact held.abandon
    · have stored := custody_store h first.term m.sink
      split <;> rename_i sink result <;> rw [result] at stored
      · exact Schedule.Custody.abandon (by rwa [List.append_nil])
      · exact custody_enter (m := { m with sink }) stored dictionary

/-- A step keeps custody, whether or not it succeeds. -/
theorem custody_step (h : m.schedule.Custody given []) (dictionary : D) :
    (m.step dictionary).2.1.schedule.Custody given [] := by
  unfold step
  split
  · exact h
  · split
    · exact h
    · rename_i popped
      have written := custody_writeGroup (m := { m with schedule := _ })
        (by simpa using h.popGroup popped) dictionary
      split <;> rename_i result <;> rw [result] at written
      · exact written
      · have released := written.releaseAll
        split <;> rename_i result <;> rw [result] at released
        · exact released
        · exact released.tell _

theorem isPoisoned_writeGroup {first : Lease C} {rest : List (Lease C)} {m' : Merge C S}
    {dictionary dictionary' : D} {merged : MergedTerm}
    (h : writeGroup first rest m dictionary = (.ok merged, m', dictionary')) :
    m'.isPoisoned = m.isPoisoned := by
  unfold writeGroup at h
  dsimp only at h
  split at h
  · cases h
  · split at h
    · cases h
    · split at h
      · cases h
      · have kept := isPoisoned_enter h
        exact kept

/-- A step that succeeds poisons nothing. -/
theorem isPoisoned_step {m' : Merge C S} {dictionary dictionary' : D} {merged : MergedTerm}
    (h : m.step dictionary = (.ok merged, m', dictionary')) : m'.isPoisoned = false := by
  unfold step at h
  split at h
  · cases h
  · rename_i sound
    split at h
    · cases h
    · split at h
      · rename_i written
        cases h
        exact (isPoisoned_writeGroup written).trans (Bool.eq_false_iff.mpr sound)
      · split at h <;> cases h

/-- A step that fails leaves nothing scheduled. -/
theorem toList_step {m' : Merge C S} {dictionary dictionary' : D} {e : Error} (spent : m.Spent)
    (failed : m.step dictionary = (.error e, m', dictionary')) :
    m'.schedule.heap.toList = [] := by
  unfold step at failed
  split at failed
  · rename_i poisoned
    cases failed
    exact spent poisoned
  · split at failed
    · rename_i none
      cases failed
      exact Schedule.toList_of_popGroup none
    · split at failed
      · cases failed
      · split at failed <;> rename_i released <;> cases failed
        · exact Schedule.toList_of_releaseAll released
        · have unscheduled := Schedule.toList_of_releaseAll released
          exact unscheduled

/-- A step keeps custody, and if the merge goes no further it holds nothing. -/
theorem custody_spent_step (m : Merge C S) (dictionary : D)
    (h : m.schedule.Custody given [] ∧ m.Spent) :
    (m.step dictionary).2.1.schedule.Custody given [] ∧ (m.step dictionary).2.1.Spent := by
  refine ⟨custody_step h.1 dictionary, ?_⟩
  rcases stepped : m.step dictionary with ⟨e | merged, m', dictionary'⟩
  · exact fun _ => toList_step h.2 stepped
  · intro poisoned
    rw [isPoisoned_step stepped] at poisoned
    cases poisoned

/-- Whatever is called, custody is kept, and a merge that goes no further holds nothing. -/
theorem custody_perform (calls : List Call) (dictionary : D)
    (h : m.schedule.Custody given [] ∧ m.Spent) :
    (perform calls m dictionary).1.schedule.Custody given [] ∧
      (perform calls m dictionary).1.Spent := by
  refine perform_keeps (P := fun m _ => m.schedule.Custody given [] ∧ m.Spent) ?_ ?_ calls m
    dictionary h
  · exact custody_spent_step
  · intro m _ h
    exact ⟨h.1.releaseAll, fun _ => Schedule.toList_releaseAll m.schedule⟩

variable [RunOpener F C]

omit [PostingSink S] [Dictionary D] in
/-- A merge that was started holds the cursors that it was given, or it holds nothing. -/
theorem custody_start (count : Nat) (opener : F) (sink : S) (interval : Nat) :
    let (result, _, m) := start count opener sink interval
    m.schedule.Custody (Schedule.givenBefore opener (Schedule.asked count result)) [] ∧ m.Spent ∧
      (result ≠ .ok () → m.schedule.heap.toList = []) := by
  have opened := Schedule.custody_start (C := C) count opener
  unfold start
  generalize Schedule.start count opener = outcome at *
  obtain ⟨_ | _, opener', s⟩ := outcome
  · have unscheduled := opened.2 (fun same => by cases same)
    exact ⟨opened.1, fun _ => unscheduled, fun _ => unscheduled⟩
  · refine ⟨opened.1.tell _, ?_, fun failed => absurd rfl failed⟩
    intro poisoned
    cases poisoned

/-- A merge to the end closes each cursor that it was given once, whether or not it succeeds. -/
theorem closed_mergeRuns (count : Nat) (opener : F) (sink : S) (dictionary : D) :
    let (result, _, _) := start count opener sink 0
    let given := Schedule.givenBefore opener (Schedule.asked count result)
    let (_, m, _) := mergeRuns count opener sink dictionary
    m.schedule.ClosedAll given := by
  have begun := custody_start (C := C) count opener sink 0
  unfold mergeRuns
  generalize start count opener sink 0 = outcome at *
  obtain ⟨e | _, opener', m⟩ := outcome
  · obtain ⟨custody, -, failed⟩ := begun
    exact custody.closedAll (failed fun same => by cases same)
  · obtain ⟨custody, spent, -⟩ := begun
    have kept := rest_keeps (P := fun m _ => m.schedule.Custody _ [] ∧ m.Spent)
      custody_spent_step m dictionary #[] ⟨custody, spent⟩
    dsimp only at *
    generalize m.rest dictionary #[] = outcome at *
    obtain ⟨e | _, merged, m', dictionary'⟩ := outcome
    · have dropped : m'.drop.schedule.Custody _ [] := kept.1.abandonAll
      exact dropped.closedAll rfl
    · exact custody_finish kept.1

/-- Of the cursors that a merge was given, one for each position, each was left or is scheduled,
whatever was called. One that was left is what became of the cursor that was given there, and just
one call closed it; one that is scheduled was not closed. All were closed once and left if the start
failed, after a step that fails, after the merge was given up, and when it is ended or dropped. -/
theorem cursors_closed_once (count : Nat) (opener : F) (sink : S) (interval : Nat)
    (calls : List Call) (dictionary : D) :
    let (result, _, started) := start count opener sink interval
    let given := Schedule.givenBefore opener (Schedule.asked count result)
    let (m, dictionary) := perform calls started dictionary
    (given.map Prod.fst).Nodup ∧ m.schedule.ledger.given = given ∧
      (given.map Prod.fst).Perm
        (m.schedule.ledger.left.map Prod.fst ++ m.held.map Lease.position) ∧
      (∀ place ∈ m.schedule.ledger.left, CameFrom given 1 place) ∧
      (∀ lease ∈ m.held, CameFrom given 0 lease.place) ∧
      (result ≠ .ok () → started.schedule.ClosedAll given) ∧
      (∀ e, (m.step dictionary).1 = .error e →
        (m.step dictionary).2.1.schedule.ClosedAll given) ∧
      (abort m).2.schedule.ClosedAll given ∧
      (finish m).2.schedule.ClosedAll given ∧
      m.drop.schedule.ClosedAll given := by
  have begun := custody_start (C := C) count opener sink interval
  generalize start count opener sink interval = outcome at *
  obtain ⟨result, opener', started⟩ := outcome
  obtain ⟨custody, spent, failed⟩ := begun
  have ⟨kept, spent⟩ := custody_perform calls dictionary ⟨custody, spent⟩
  dsimp only at *
  generalize perform calls started dictionary = state at *
  obtain ⟨m, dictionary⟩ := state
  dsimp only at *
  have places := kept.perm
  rw [List.map_nil, List.append_nil] at places
  refine ⟨Schedule.nodup_givenBefore _ _, kept.given_eq, places, kept.left, kept.scheduled,
    fun h => custody.closedAll (failed h), fun e h => ?_, ?_, custody_finish kept, ?_⟩
  · have unscheduled := toList_step spent (Prod.ext h rfl)
    exact (custody_step kept dictionary).closedAll unscheduled
  · exact kept.releaseAll.closedAll (Schedule.toList_releaseAll _)
  · exact kept.abandonAll.closedAll rfl

end Merge

end IndexMerge
