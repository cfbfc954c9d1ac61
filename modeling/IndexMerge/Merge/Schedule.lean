import IndexMerge.Merge.Heap
import IndexMerge.Merge.Lease
import IndexMerge.Run.Opener
import IndexMerge.Total

/-!
# Schedules

The open cursors of a merge, ordered by the terms on which they stand and by the numbers of their
runs. The least term is taken with all cursors that stand on it; a cursor that was consumed goes
to its next entry and comes back, or is released at the end of its run.
-/

namespace IndexMerge

/-- The scheduled cursors, and what was done so far. -/
structure Schedule (C : Type) [RunCursor C] where
  heap : Heap (Lease.before (C := C))
  ledger : Ledger C

namespace Schedule

variable {F C : Type} [RunCursor C]

/-- Whether so many cursors can be given places. A place is reckoned with a kibibyte. -/
def canHold (count : Nat) : Bool := Buffer.fits (1024 * count)

/-- A schedule without cursors. -/
def empty : Schedule C := ⟨.empty, .empty⟩

/-- What is shown of what was done so far. -/
def journal (s : Schedule C) : Journal := s.ledger.journal

@[simp] theorem journal_mk (heap : Heap (Lease.before (C := C))) (ledger : Ledger C) :
    journal ⟨heap, ledger⟩ = ledger.journal := rfl

@[simp] theorem journal_ledger (s : Schedule C) : s.ledger.journal = s.journal := rfl

/-- The number of scheduled cursors. -/
def size (s : Schedule C) : Nat := s.heap.size

/-- Whether no cursor is scheduled. -/
def isEmpty (s : Schedule C) : Bool := s.size == 0

/-- Writes down what was told. -/
def tell (s : Schedule C) (notice : Notice) : Schedule C :=
  { s with ledger := s.ledger.tell notice }

/-- Ends a lease by a release. -/
def release (lease : Lease C) : Attempt Error (Schedule C) Unit := fun s =>
  let (result, ledger) := lease.release s.ledger
  (result, { s with ledger })

/-- Ends leases because of another failure. -/
def abandon (s : Schedule C) (leases : List (Lease C)) : Schedule C :=
  { s with ledger := Lease.abandonAll leases s.ledger }

/-- Releases all scheduled cursors. The first failure is given. -/
def releaseAll : Attempt Error (Schedule C) Unit := fun s =>
  match Lease.releaseAll s.heap.toList s.ledger with
  | (none, ledger) => (.ok (), ⟨.empty, ledger⟩)
  | (some e, ledger) => (.error e, ⟨.empty, ledger⟩)

/-- Abandons all scheduled cursors. -/
def abandonAll (s : Schedule C) : Schedule C :=
  { s.abandon s.heap.toList with heap := .empty }

/-- Takes the cursor that was opened at a position into the schedule. It has to be of the run that
was asked for; if that is empty it is released. -/
def enlist (lease : Lease C) : Attempt Error (Schedule C) Unit := fun s =>
  if lease.runIndex ≠ lease.position then
    (.error (.violation (.wrongCursor lease.runIndex lease.position)), s.abandon [lease])
  else if !RunCursor.hasNext lease.cursor then
    release lease (s.tell (.runEmpty lease.position))
  else match RunCursor.advance lease.cursor with
    | (.ok (), cursor) => (.ok (), { s with heap := s.heap.push { lease with cursor } })
    | (.error e, cursor) => (.error e, s.abandon [{ lease with cursor }])

/-- Opens the run at a position and takes its cursor into the schedule. -/
def openRun [RunOpener F C] (position : Nat) (opener : F) (s : Schedule C) :
    Except Error Unit × F × Schedule C :=
  let (result, notices, opener) := RunOpener.openRun position opener
  let s := notices.foldl tell s
  match result with
  | .error e => (.error e, opener, s)
  | .ok cursor =>
    let (result, s) := enlist ⟨position, cursor⟩
      { s with ledger := s.ledger.record (.opened position cursor) }
    (result, opener, s)

/-- Opens `count` runs from a position on. If one fails, everything is released and the failure
names the run. -/
def openRuns [RunOpener F C] : Nat → Nat → F → Schedule C → Except Error Unit × F × Schedule C
  | 0, _, opener, s => (.ok (), opener, s)
  | count + 1, position, opener, s =>
    match openRun position opener s with
    | (.ok (), opener, s) => openRuns count (position + 1) opener s
    | (.error e, opener, s) =>
      match releaseAll s with
      | (.ok (), s) => (.error (.initialization position e), opener, s)
      | (.error release, s) =>
        (.error (.initialization position e), opener, s.tell (.releaseFailedAfterStart release))

/-- Opens the first `count` runs. -/
def start [RunOpener F C] (count : Nat) (opener : F) : Except Error Unit × F × Schedule C :=
  openRuns count 0 opener empty

/-- Takes the cursors that stand on a term as long as one of them is the least. -/
def takeTerm (term : Term) (heap : Heap (Lease.before (C := C))) :
    List (Lease C) × Heap (Lease.before (C := C)) :=
  match heap.peek?.filter (·.term == term), _h : heap.pop with
  | some _, some (lease, heap) =>
    let (leases, heap) := takeTerm term heap
    (lease :: leases, heap)
  | _, _ => ([], heap)
termination_by heap.size
decreasing_by exact Heap.size_pop _h

/-- Takes all cursors that stand on the least term. -/
def popGroup (s : Schedule C) : Option (Lease C × List (Lease C) × Schedule C) :=
  match s.heap.pop with
  | none => none
  | some (first, heap) =>
    let (rest, heap) := takeTerm first.term heap
    some (first, rest, { s with heap })

/-- Brings a cursor back at its next entry, or releases it at the end of its run. -/
def requeue (lease : Lease C) : Attempt Error (Schedule C) Unit := fun s =>
  if RunCursor.hasNext lease.cursor then
    match RunCursor.advance lease.cursor with
    | (.ok (), cursor) => (.ok (), { s with heap := s.heap.push { lease with cursor } })
    | (.error e, cursor) => (.error e, s.abandon [{ lease with cursor }])
  else release lease (s.tell (.runExhausted lease.runIndex))

/-- Brings cursors back in turn. If one fails, those behind it are abandoned. -/
def requeueAll : List (Lease C) → Attempt Error (Schedule C) Unit
  | [], s => (.ok (), s)
  | lease :: leases, s =>
    match requeue lease s with
    | (.ok (), s) => requeueAll leases s
    | (.error e, s) => (.error e, s.abandon leases)

/-- A bound on the number of times that scheduled cursors can still be consumed. -/
def cost (s : Schedule C) : Nat := total (s.heap.toList.map Lease.cost)

theorem cost_push (heap : Heap (Lease.before (C := C))) (lease : Lease C) (ledger : Ledger C) :
    cost ⟨heap.push lease, ledger⟩ = lease.cost + cost ⟨heap, ledger⟩ := by
  simpa [cost] using total_perm ((Heap.items_push heap lease).map Lease.cost)

theorem cost_pop {heap heap' : Heap (Lease.before (C := C))} {lease : Lease C}
    (h : heap.pop = some (lease, heap')) (ledger ledger' : Ledger C) :
    lease.cost + cost ⟨heap', ledger⟩ = cost ⟨heap, ledger'⟩ := by
  simpa [cost] using total_perm ((Heap.items_pop h).map Lease.cost)

theorem cost_takeTerm (term : Term) (heap : Heap (Lease.before (C := C))) (ledger : Ledger C) :
    total ((takeTerm term heap).1.map Lease.cost) + cost ⟨(takeTerm term heap).2, ledger⟩ =
      cost ⟨heap, ledger⟩ := by
  fun_induction takeTerm term heap with
  | case1 heap _ lease heap' taken _ leases rest result ih =>
    rw [result] at ih
    have := cost_pop taken ledger ledger
    simp only [List.map_cons, total_cons] at *
    omega
  | case2 => simp

theorem cost_popGroup {s s' : Schedule C} {first : Lease C} {rest : List (Lease C)}
    (h : s.popGroup = some (first, rest, s')) :
    total ((first :: rest).map Lease.cost) + s'.cost = s.cost := by
  unfold popGroup at h
  split at h
  · cases h
  · rename_i lease heap taken
    have popped := cost_pop taken s.ledger s.ledger
    have grouped := cost_takeTerm lease.term heap s.ledger
    cases h
    simp only [List.map_cons, total_cons]
    rw [Nat.add_assoc, grouped, popped]

theorem cost_requeue {s s' : Schedule C} {lease : Lease C} (h : requeue lease s = (.ok (), s')) :
    s'.cost < s.cost + lease.cost := by
  unfold requeue at h
  split at h
  · split at h
    · rename_i advanced
      cases h
      have := RunCursor.entriesLeft_advance advanced
      rw [cost_push]
      simp only [Lease.cost]
      have : cost ⟨s.heap, s.ledger⟩ = s.cost := rfl
      omega
    · cases h
  · obtain ⟨_, rfl⟩ := Prod.mk.inj h
    exact Nat.lt_add_of_pos_right (Nat.succ_pos _)

theorem cost_requeueAll {s s' : Schedule C} {leases : List (Lease C)}
    (h : requeueAll leases s = (.ok (), s')) :
    s'.cost + leases.length ≤ s.cost + total (leases.map Lease.cost) := by
  induction leases generalizing s with
  | nil => cases h; simp
  | cons lease leases ih =>
    unfold requeueAll at h
    split at h
    · rename_i requeued
      have := cost_requeue requeued
      have := ih h
      simp only [List.map_cons, total_cons, List.length_cons]
      omega
    · cases h

end Schedule

end IndexMerge
