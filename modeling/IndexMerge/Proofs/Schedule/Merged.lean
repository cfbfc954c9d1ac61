import IndexMerge.Proofs.Schedule.Group

/-!
# What was told of merged terms

A journal tells which terms were merged, each with the runs that hold it (`Journal.merged`).
Nothing that is done with cursors adds to this.
-/

namespace IndexMerge

/-- The term and the runs that are told of when a term was merged. -/
def Event.merged : Event → Option (Term × List Nat)
  | .told (.termMerged _ term runs _ _) => some (term, runs)
  | _ => none

/-- The terms that were merged, each with the runs that hold it, in order. -/
def Journal.merged (journal : Journal) : List (Term × List Nat) :=
  journal.events.toList.filterMap Event.merged

@[simp] theorem Journal.merged_record (journal : Journal) (event : Event) :
    (journal.record event).merged = journal.merged ++ event.merged.toList := by
  cases told : event.merged <;> simp [merged, record, told]

@[simp] theorem Journal.merged_tell (journal : Journal) (notice : Notice) :
    (journal.tell notice).merged = journal.merged ++ (Event.told notice).merged.toList :=
  merged_record journal (.told notice)

variable {C : Type} [RunCursor C]

namespace Lease

@[simp] theorem merged_release (lease : Lease C) (ledger : Ledger C) :
    (lease.release ledger).2.journal.merged = ledger.journal.merged := by
  simp [release_apply, Deed.event, Event.merged]

@[simp] theorem merged_abandon (lease : Lease C) (ledger : Ledger C) :
    (lease.abandon ledger).journal.merged = ledger.journal.merged := by
  unfold abandon drop
  rcases RunCursor.close lease.cursor with ⟨_ | _, cursor⟩ <;> simp [Deed.event, Event.merged]

@[simp] theorem merged_abandonAll (leases : List (Lease C)) (ledger : Ledger C) :
    (abandonAll leases ledger).journal.merged = ledger.journal.merged := by
  induction leases generalizing ledger with
  | nil => rfl
  | cons lease leases ih => exact (ih _).trans (merged_abandon lease ledger)

theorem merged_releaseAll (leases : List (Lease C)) (ledger : Ledger C) :
    (releaseAll leases ledger).2.journal.merged = ledger.journal.merged := by
  unfold releaseAll
  generalize (none : Option Error) = first
  induction leases generalizing first ledger with
  | nil => rfl
  | cons lease leases ih =>
    have kept := merged_release lease ledger
    rw [List.foldl_cons]
    dsimp only
    split <;> rename_i released <;> rw [released] at kept <;> rw [ih]
    · exact kept
    · exact kept
    · simpa [Event.merged] using kept

end Lease

namespace Schedule

variable {s : Schedule C}

theorem merged_releaseAll (s : Schedule C) :
    (releaseAll s).2.journal.merged = s.journal.merged := by
  have kept := Lease.merged_releaseAll s.heap.toList s.ledger
  unfold releaseAll
  split <;> rename_i released <;> rwa [released] at kept

theorem merged_requeue (lease : Lease C) (s : Schedule C) :
    (requeue lease s).2.journal.merged = s.journal.merged := by
  unfold requeue
  split
  · split
    · rfl
    · exact Lease.merged_abandonAll _ _
  · exact (Lease.merged_release _ _).trans (by simp [tell, Event.merged])

theorem merged_requeueAll (leases : List (Lease C)) (s : Schedule C) :
    (requeueAll leases s).2.journal.merged = s.journal.merged := by
  refine requeueAll_keeps (P := fun s' => s'.journal.merged = s.journal.merged) ?_ ?_ rfl
  · exact fun lease _ s' same => (merged_requeue lease s').trans same
  · exact fun leases s' same => (Lease.merged_abandonAll leases s'.ledger).trans same

end Schedule

end IndexMerge
