import IndexMerge.Proofs.Merge.Calls
import IndexMerge.Proofs.Posting.Given
import IndexMerge.Proofs.Schedule.Each

/-!
# Merges of cursors of one kind

If cursors stay of a kind when they lend postings and when they advance (`Lasting`), then a merge of
such cursors stays one, whichever calls are made (`each_perform`).
-/

namespace IndexMerge

variable {C S D : Type} [RunCursor C] {K : C → Prop}

/-- Cursors of a kind stay of it, whatever a merge does with them. -/
structure Lasting (C : Type) [RunCursor C] (K : C → Prop) : Prop where
  advance : ∀ {c c' : C}, K c → RunCursor.advance c = (.ok (), c') → K c'
  openPostings : ∀ {c : C}, K c → K (RunCursor.openPostings c)
  nextPosting : ∀ {c : C}, K c → K (RunCursor.nextPosting c).2

namespace Merge

/-- The cursors that are scheduled are of a kind. -/
abbrev Each (K : C → Prop) (m : Merge C S) : Prop :=
  Schedule.Each (fun lease => K lease.cursor) m.schedule.heap

variable {m : Merge C S} {leases : List (Lease C)}

/-- A merge starts with the cursors that are scheduled. -/
theorem each_start {F : Type} [RunOpener F C] {count : Nat} {opener : F}
    (each : Schedule.Each (fun lease => K lease.cursor) (Schedule.start count opener).2.2.heap)
    (sink : S) (interval : Nat) : (start count opener sink interval).2.2.Each K := by
  unfold start
  split <;> rename_i result <;> rw [result] at each <;> exact each

/-- Storing postings leaves cursors of the kind of which they were. -/
theorem each_store [PostingSink S] (lasting : Lasting C K) (kind : ∀ lease ∈ leases, K lease.cursor)
    (term : Term) (sink : S) : ∀ lease ∈ (store term leases sink).2.1, K lease.cursor :=
  forall_store (P := fun lease => K lease.cursor) (fun _ kind => lasting.openPostings kind)
    (fun _ kind => lasting.nextPosting kind) kind term sink

theorem each_enter [Dictionary D] (lasting : Lasting C K) (each : m.Each K)
    (kind : ∀ lease ∈ leases, K lease.cursor) (term : Term) (runs : List Nat)
    (statistics : TermStatistics) (pointer : BitPosition) (postings : Nat) (d : D) :
    (enter term runs statistics pointer postings leases m d).2.1.Each K := by
  unfold enter
  by_cases full : UInt32.size ≤ m.progress.terms
  · rw [if_pos full]
    exact each
  · rw [if_neg full]
    dsimp only
    split
    · exact each
    · have counted : (m.count ⟨term, UInt32.ofNat m.progress.terms, runs, { statistics with
          termId := some (UInt32.ofNat m.progress.terms), pointer := some pointer }⟩
          pointer postings).Each K := by
        rw [Each, heap_count]
        exact each
      have back := Schedule.Each.requeueAll counted fun lease member _ advanced =>
        lasting.advance (kind lease member) advanced
      split <;> rename_i requeued <;> rw [requeued] at back <;> exact back

variable [PostingSink S] [Dictionary D]

theorem each_writeGroup (lasting : Lasting C K) (each : m.Each K) {first : Lease C}
    {rest : List (Lease C)} (kind : ∀ lease ∈ first :: rest, K lease.cursor) (d : D) :
    (writeGroup first rest m d).2.1.Each K := by
  unfold writeGroup
  dsimp only
  split
  · exact each
  · split
    · exact each
    · have kept := each_store lasting kind first.term m.sink
      split <;> rename_i result
      · exact each
      · rw [result] at kept
        apply each_enter lasting
        · exact each
        · exact kept

/-- A step leaves cursors of the kind of which they were. -/
theorem each_step (lasting : Lasting C K) (m : Merge C S) (d : D) (each : m.Each K) :
    (m.step d).2.1.Each K := by
  unfold step
  by_cases poisoned : m.isPoisoned = true
  · rw [if_pos poisoned]
    exact each
  rw [if_neg poisoned]
  split
  · exact each
  · rename_i first rest schedule popped
    obtain ⟨held, behind⟩ := Schedule.Each.popGroup each popped
    have written := each_writeGroup (m := { m with schedule }) lasting behind held d
    split <;> rename_i result <;> rw [result] at written
    · exact written
    · rename_i m' d'
      have released := Schedule.each_releaseAll (P := fun lease => K lease.cursor) m'.schedule
      split <;> rename_i gone <;> rw [gone] at released <;> exact released

/-- Any sequence of calls leaves cursors of the kind of which they were. -/
theorem each_perform (lasting : Lasting C K) (calls : List Call) (m : Merge C S) (d : D)
    (each : m.Each K) : (perform calls m d).1.Each K := by
  apply perform_keeps (P := fun m _ => m.Each K) _ _ calls m d each
  · exact each_step lasting
  · exact fun m _ _ => Schedule.each_releaseAll m.schedule

end Merge

end IndexMerge
