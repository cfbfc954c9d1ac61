import IndexMerge.Proofs.Heap.Map
import IndexMerge.Proofs.Run.Unchecked
import IndexMerge.Proofs.Schedule.Group

/-!
# Schedules that do not look at documents

Cursors are scheduled by their terms and the numbers of their runs. A schedule of cursors that do
not look at documents gives the same groups (`popGroup_unchecked`).
-/

namespace IndexMerge

/-- The same deed, done to the image of its cursor. -/
def Deed.map {C C' : Type} (f : C → C') : Deed C → Deed C'
  | .opened position cursor => .opened position (f cursor)
  | .ended position cursor => .ended position (f cursor)
  | .told notice => .told notice

namespace Schedule

/-- The schedule of cursors that do not look at documents. -/
def unchecked (s : Schedule StoredCursor) : Schedule UncheckedCursor :=
  ⟨s.heap.map Lease.unchecked, ⟨s.ledger.deeds.map (Deed.map UncheckedCursor.mk)⟩⟩

theorem before_unchecked (a b : Lease StoredCursor) :
    a.unchecked.before b.unchecked = a.before b := rfl

theorem peek?_unchecked (term : Term) (heap : Heap (Lease.before (C := StoredCursor))) :
    (heap.map Lease.unchecked : Heap (Lease.before (C := UncheckedCursor))).peek?.filter
      (·.term == term) = (heap.peek?.filter (·.term == term)).map Lease.unchecked := by
  rw [Heap.peek?_map, Option.filter_map]
  rfl

theorem takeTerm_unchecked (term : Term) (heap : Heap (Lease.before (C := StoredCursor))) :
    takeTerm term (heap.map Lease.unchecked) =
      ((takeTerm term heap).1.map Lease.unchecked,
        (takeTerm term heap).2.map Lease.unchecked) := by
  have popped := Heap.pop_map before_unchecked heap
  have asked := peek?_unchecked term heap
  fun_induction takeTerm term heap with
  | case1 heap root lease heap' taken peeked leases rest result ih =>
    rw [taken] at popped
    rw [peeked] at asked
    have ih := ih (Heap.pop_map before_unchecked heap') (peek?_unchecked term heap')
    rw [result] at ih
    unfold takeTerm
    split
    · rename_i _ _ taken'
      cases popped.symm.trans taken'
      rw [ih]
      rfl
    · rename_i other
      exact (other _ _ _ asked popped).elim
  | case2 heap other =>
    unfold takeTerm
    split
    · rename_i asked' taken'
      rw [asked', eq_comm, Option.map_eq_some_iff] at asked
      rw [taken', eq_comm, Option.map_eq_some_iff] at popped
      obtain ⟨root, peeked, -⟩ := asked
      obtain ⟨⟨lease, heap'⟩, taken, -⟩ := popped
      exact (other root lease heap' peeked taken).elim
    · rfl

/-- The group that is taken from the schedule of cursors that do not look at documents is that of
the cursors that do. -/
theorem popGroup_unchecked (s : Schedule StoredCursor) :
    s.unchecked.popGroup = s.popGroup.map fun group =>
      (group.1.unchecked, group.2.1.map Lease.unchecked, group.2.2.unchecked) := by
  have popped := Heap.pop_map before_unchecked s.heap
  unfold popGroup unchecked
  dsimp only
  rw [popped]
  cases s.heap.pop with
  | none => rfl
  | some taken =>
    obtain ⟨first, heap⟩ := taken
    have grouped : takeTerm first.unchecked.term (heap.map Lease.unchecked) = _ :=
      takeTerm_unchecked first.term heap
    dsimp only [Option.map_some]
    rw [grouped]

end Schedule

end IndexMerge
