import IndexMerge.Proofs.Schedule.Group

/-!
# Schedules and their ledgers

What is done with scheduled cursors does not depend on what was written down before: schedules with
the same cursors give the same groups and the same results, and keep the same cursors.
-/

namespace IndexMerge

variable {C : Type} [RunCursor C]

namespace Lease

/-- Why the lease's cursor cannot be closed, if it cannot. -/
def closeFault? (lease : Lease C) : Option Error :=
  match (RunCursor.close lease.cursor).1 with
  | .ok () => none
  | .error e => some e

/-- Of the failures to close cursors the first one is given, whatever was written down before. -/
theorem fault_releaseAll (leases : List (Lease C)) (ledger : Ledger C) :
    (releaseAll leases ledger).1 = leases.findSome? closeFault? := by
  unfold releaseAll
  rw [← Option.none_or (o := leases.findSome? closeFault?)]
  -- the failure that was found before the leases that are left
  generalize (none : Option Error) = first
  induction leases generalizing first ledger with
  | nil =>
    rw [List.findSome?_nil, Option.or_none]
    rfl
  | cons lease leases ih =>
    rw [List.foldl_cons, List.findSome?_cons]
    unfold closeFault?
    dsimp only
    rw [release_apply]
    cases closed : (RunCursor.close lease.cursor).1 with
    | ok done => exact ih _ first
    | error e =>
      cases first with
      | none => exact ih _ (some e)
      | some found => exact ih _ (some found)

end Lease

namespace Schedule

variable {s t : Schedule C}

/-- Releasing empties the schedule and gives the first failure to close a cursor. -/
theorem releaseAll_eq (s : Schedule C) : releaseAll s =
    (match s.heap.toList.findSome? Lease.closeFault? with
      | none => .ok ()
      | some e => .error e, ⟨.empty, (Lease.releaseAll s.heap.toList s.ledger).2⟩) := by
  have fault := Lease.fault_releaseAll s.heap.toList s.ledger
  unfold releaseAll
  rw [← fault]
  rcases Lease.releaseAll s.heap.toList s.ledger with ⟨_ | e, ledger⟩
  · rfl
  · rfl

theorem releaseAll_congr (same : s.heap = t.heap) :
    (releaseAll s).1 = (releaseAll t).1 ∧ (releaseAll s).2.heap = (releaseAll t).2.heap := by
  rw [releaseAll_eq, releaseAll_eq, same]
  exact ⟨rfl, rfl⟩

theorem requeue_congr (same : s.heap = t.heap) (lease : Lease C) :
    (requeue lease s).1 = (requeue lease t).1 ∧
      (requeue lease s).2.heap = (requeue lease t).2.heap := by
  unfold requeue
  split
  · split
    · exact ⟨rfl, congrArg (Heap.push · _) same⟩
    · exact ⟨rfl, same⟩
  · exact ⟨rfl, same⟩

theorem requeueAll_congr (same : s.heap = t.heap) (leases : List (Lease C)) :
    (requeueAll leases s).1 = (requeueAll leases t).1 ∧
      (requeueAll leases s).2.heap = (requeueAll leases t).2.heap := by
  induction leases generalizing s t with
  | nil => exact ⟨rfl, same⟩
  | cons lease leases ih =>
    obtain ⟨result, heap⟩ := requeue_congr same lease
    unfold requeueAll
    generalize requeue lease s = left at result heap ⊢
    generalize requeue lease t = right at result heap ⊢
    obtain ⟨e | _, s'⟩ := left <;> obtain ⟨e' | _, t'⟩ := right <;> cases result
    · exact ⟨rfl, heap⟩
    · exact ih heap

theorem popGroup_congr (same : s.heap = t.heap) :
    (s.popGroup = none ∧ t.popGroup = none) ∨ ∃ first rest s' t',
      s.popGroup = some (first, rest, s') ∧ t.popGroup = some (first, rest, t') ∧
        s'.heap = t'.heap := by
  unfold popGroup
  rw [same]
  cases t.heap.pop with
  | none => exact .inl ⟨rfl, rfl⟩
  | some taken => exact .inr ⟨_, _, _, _, rfl, rfl, rfl⟩

theorem isEmpty_congr (same : s.heap = t.heap) : s.isEmpty = t.isEmpty := by
  unfold isEmpty size
  rw [same]

end Schedule

end IndexMerge
