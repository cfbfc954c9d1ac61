import IndexMerge.Proofs.Merge.Custody
import IndexMerge.Proofs.Schedule.Coverage

/-!
# Schedules of cursors of one kind

What is known of every scheduled cursor stays known when a group is taken, when everything is
released, and when cursors come back or are opened, as long as it is known of them at their next
entry (`Each`).
-/

namespace IndexMerge.Schedule

variable {F C : Type} [RunCursor C] {P Q : Lease C → Prop} {s s' : Schedule C} {lease : Lease C}
  {heap : Heap (Lease.before (C := C))}

/-- Every scheduled cursor is of a kind. -/
def Each (P : Lease C → Prop) (heap : Heap (Lease.before (C := C))) : Prop :=
  ∀ lease ∈ heap.toList, P lease

/-- Wherever the cursor goes from here, the lease is of a kind. -/
def Leads (P : Lease C → Prop) (lease : Lease C) : Prop :=
  ∀ cursor, RunCursor.advance lease.cursor = (.ok (), cursor) → P { lease with cursor }

theorem Each.empty : Each P .empty :=
  fun _ member => (List.not_mem_nil member).elim

theorem Each.push (h : Each P heap) (here : P lease) : Each P (heap.push lease) := by
  intro other member
  rcases List.mem_cons.mp ((Heap.items_push heap lease).mem_iff.mp member) with rfl | member
  · exact here
  · exact h other member

theorem each_releaseAll (s : Schedule C) : Each P (releaseAll s).2.heap := by
  unfold releaseAll
  split <;> exact .empty

theorem Each.popGroup {first : Lease C} {rest : List (Lease C)} (h : Each P s.heap)
    (popped : s.popGroup = some (first, rest, s')) :
    (∀ lease ∈ first :: rest, P lease) ∧ Each P s'.heap := by
  have perm := perm_popGroup popped
  exact ⟨fun lease member => h lease (perm.mem_iff.mp (List.mem_append_left _ member)),
    fun lease member => h lease (perm.mem_iff.mp (List.mem_append_right _ member))⟩

theorem Each.requeue (h : Each P s.heap) (next : Leads P lease) :
    Each P (requeue lease s).2.heap := by
  unfold Schedule.requeue
  split
  · split
    · rename_i cursor advanced
      exact h.push (next cursor advanced)
    · exact h
  · exact h

theorem Each.requeueAll {leases : List (Lease C)} (h : Each P s.heap)
    (next : ∀ lease ∈ leases, Leads P lease) : Each P (requeueAll leases s).2.heap := by
  apply requeueAll_keeps (P := fun s => Each P s.heap)
  · exact fun lease member _ kept => kept.requeue (next lease member)
  · exact fun _ _ kept => kept
  · exact h

/-- A cursor that is opened is scheduled only if it has a next entry. -/
theorem Each.enlist (h : Each P s.heap)
    (next : RunCursor.hasNext lease.cursor = true → Leads P lease) :
    Each P (enlist lease s).2.heap := by
  unfold Schedule.enlist
  split
  · exact h
  · split
    · exact h
    · rename_i more
      have more : RunCursor.hasNext lease.cursor = true := by simpa using more
      split
      · rename_i cursor advanced
        exact h.push (next more cursor advanced)
      · exact h

variable [RunOpener F C]

theorem Each.openRun (h : Each P s.heap) {position : Nat} {opener : F}
    (next : ∀ cursor, (RunOpener.openRun position opener).1 = .ok cursor →
      RunCursor.hasNext cursor = true → Leads P ⟨position, cursor⟩) :
    Each P (openRun position opener s).2.2.heap := by
  unfold Schedule.openRun
  rcases opened : RunOpener.openRun position opener with ⟨_ | cursor, notices, opener'⟩
  · dsimp only
    rw [heap_foldl_tell]
    exact h
  · have told : Each P (notices.foldl tell s).heap := by
      rw [heap_foldl_tell]
      exact h
    exact Each.enlist told (next cursor (congrArg Prod.fst opened))

theorem Each.openRuns {opener : F}
    (next : ∀ position cursor,
      (RunOpener.openRun position (openerBefore opener position)).1 = .ok cursor →
      RunCursor.hasNext cursor = true → Leads P ⟨position, cursor⟩) (count position : Nat)
    (h : Each P s.heap) :
    Each P (openRuns count position (openerBefore opener position) s).2.2.heap := by
  induction count generalizing position s with
  | zero => exact h
  | succ count ih =>
    have before := opener_openRun position (openerBefore opener position) s
    have still := h.openRun (next position)
    unfold Schedule.openRuns
    split
    · rename_i opened
      rw [opened] at before still
      obtain rfl := before
      exact ih (position + 1) still
    · rename_i s' _
      have released : Each P (Schedule.releaseAll s').2.heap := each_releaseAll s'
      split <;> rename_i gone <;> rw [gone] at released <;> exact released

/-- Whether or not all runs can be opened, the cursors that are scheduled are of the kind of which
they are at their first entries. -/
theorem each_start {opener : F}
    (next : ∀ position cursor,
      (RunOpener.openRun position (openerBefore opener position)).1 = .ok cursor →
      RunCursor.hasNext cursor = true → Leads P ⟨position, cursor⟩) (count : Nat) :
    Each P (start count opener).2.2.heap :=
  Each.openRuns next count 0 .empty

end IndexMerge.Schedule
