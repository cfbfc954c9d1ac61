import IndexMerge.Proofs.Posting.Yield
import IndexMerge.Proofs.Schedule.Steady

/-!
# Cursors without an ordinary end

A cursor may be known to fail before the end of its run (`Lease.Endless`): wherever it stands, it
has a next entry to go to when its postings have been given. Once such a cursor is scheduled, every
operation that succeeds leaves one scheduled (`Schedule.holds_openRuns`,
`Schedule.holds_requeueAll`).
-/

namespace IndexMerge

open PostingSource

variable {F C : Type} [RunCursor C]

/-- Cursors that can be on an entry or behind its postings, and never come to the end of a run. -/
structure Lease.Endless (On Behind : Lease C → Prop) : Prop where
  hasNext : ∀ {lease : Lease C}, Behind lease → RunCursor.hasNext lease.cursor = true
  advance : ∀ {lease : Lease C} {cursor : C}, Behind lease →
    RunCursor.advance lease.cursor = (.ok (), cursor) → On { lease with cursor }
  yields : ∀ {lease after : Lease C} {postings : List Posting}, On lease →
    Yields lease.openPostings postings after → Behind after

namespace Schedule

variable {On Behind : Lease C → Prop} {s s' : Schedule C} {lease : Lease C}

/-- Some scheduled cursor is of this kind. -/
def Holds (On : Lease C → Prop) (s : Schedule C) : Prop := ∃ lease ∈ s.heap.toList, On lease

theorem not_isEmpty_of_holds (holds : s.Holds On) : s.isEmpty = false := by
  obtain ⟨lease, member, -⟩ := holds
  refine Bool.eq_false_iff.mpr fun empty => ?_
  rw [isEmpty_iff.mp empty] at member
  cases member

/-- What is done with cursors outside the heap does not matter. -/
theorem Holds.of_heap (holds : s.Holds On) (same : s'.heap = s.heap) : s'.Holds On := by
  unfold Holds
  rwa [same]

theorem Holds.push (holds : s.Holds On) (lease : Lease C) (ledger : Ledger C) :
    Holds On ⟨s.heap.push lease, ledger⟩ := by
  obtain ⟨other, member, on⟩ := holds
  exact ⟨other, (Heap.items_push s.heap lease).mem_iff.mpr (List.mem_cons_of_mem lease member), on⟩

theorem holds_push (on : On lease) (heap : Heap (Lease.before (C := C))) (ledger : Ledger C) :
    Holds On ⟨heap.push lease, ledger⟩ :=
  ⟨lease, (Heap.items_push heap lease).mem_iff.mpr (List.mem_cons_self ..), on⟩

/-- Bringing back a cursor takes none out. -/
theorem Holds.requeue (holds : s.Holds On) (lease : Lease C) : (requeue lease s).2.Holds On := by
  unfold Schedule.requeue
  split
  · split
    · exact holds.push _ _
    · exact holds
  · exact holds

/-- If a cursor without an end is brought back, it stands on an entry. -/
theorem holds_requeue (endless : Lease.Endless On Behind) (behind : Behind lease)
    (requeued : requeue lease s = (.ok (), s')) : s'.Holds On := by
  unfold requeue at requeued
  rw [if_pos (endless.hasNext behind)] at requeued
  split at requeued <;> cases requeued
  rename_i advanced
  exact holds_push (endless.advance behind advanced) _ _

theorem holds_requeueAll (endless : Lease.Endless On Behind) {leases : List (Lease C)}
    (some : s.Holds On ∨ ∃ lease ∈ leases, Behind lease)
    (requeued : requeueAll leases s = (.ok (), s')) : s'.Holds On := by
  induction leases generalizing s with
  | nil =>
    cases requeued
    exact some.resolve_right (by simp)
  | cons lease leases ih =>
    unfold requeueAll at requeued
    split at requeued
    · rename_i next first
      refine ih ?_ requeued
      rcases some with holds | ⟨other, member, behind⟩
      · have kept := holds.requeue lease
        rw [first] at kept
        exact .inl kept
      · rcases List.mem_cons.mp member with rfl | member
        · exact .inl (holds_requeue endless behind first)
        · exact .inr ⟨other, member, behind⟩
    · cases requeued

/-- Of the cursors of a schedule each is taken with the next group or left behind. -/
theorem Holds.popGroup {first : Lease C} {rest : List (Lease C)} (holds : s.Holds On)
    (popped : s.popGroup = some (first, rest, s')) :
    s'.Holds On ∨ ∃ lease ∈ first :: rest, On lease := by
  obtain ⟨lease, member, on⟩ := holds
  rcases List.mem_append.mp ((perm_popGroup popped).mem_iff.mpr member) with taken | left
  · exact .inr ⟨lease, taken, on⟩
  · exact .inl ⟨lease, left, on⟩

theorem Holds.enlist (holds : s.Holds On) (lease : Lease C) : (enlist lease s).2.Holds On := by
  unfold Schedule.enlist
  split
  · exact holds
  · split
    · exact holds
    · split
      · exact holds.push _ _
      · exact holds

theorem holds_enlist (endless : Lease.Endless On Behind) (behind : Behind lease)
    (enlisted : enlist lease s = (.ok (), s')) : s'.Holds On := by
  unfold enlist at enlisted
  rw [endless.hasNext behind] at enlisted
  split at enlisted
  · cases enlisted
  · rw [if_neg (by simp)] at enlisted
    split at enlisted <;> cases enlisted
    rename_i advanced
    exact holds_push (endless.advance behind advanced) _ _

theorem Holds.tellAll (holds : s.Holds On) (notices : List Notice) :
    (notices.foldl tell s).Holds On := by
  induction notices generalizing s with
  | nil => exact holds
  | cons notice notices ih => exact ih (holds.of_heap rfl)

variable [RunOpener F C]

theorem Holds.openRun (holds : s.Holds On) (position : Nat) (opener : F) :
    (openRun position opener s).2.2.Holds On := by
  have told := holds.tellAll
  unfold Schedule.openRun
  rcases RunOpener.openRun position opener with ⟨_ | cursor, notices, opener'⟩
  · exact told notices
  · have given : Holds On { notices.foldl tell s with
        ledger := (notices.foldl tell s).ledger.record (.opened position cursor) } :=
      (told notices).of_heap rfl
    exact given.enlist ⟨position, cursor⟩

theorem holds_openRun (endless : Lease.Endless On Behind) {position : Nat} {opener opener' : F}
    (behind : ∀ cursor, (RunOpener.openRun position opener).1 = .ok cursor →
      Behind ⟨position, cursor⟩)
    (opened : openRun position opener s = (.ok (), opener', s')) : s'.Holds On := by
  unfold openRun at opened
  rcases given : RunOpener.openRun position opener with ⟨_ | cursor, notices, opener'⟩ <;>
    rw [given] at opened behind
  · cases opened
  · obtain ⟨result, same⟩ := Prod.mk.inj opened
    obtain ⟨-, rfl⟩ := Prod.mk.inj same
    exact holds_enlist endless (behind cursor rfl) (Prod.ext result rfl)

/-- If the cursor of one of the runs has no end, and all runs can be opened, a cursor without an end
is scheduled. -/
theorem holds_openRuns (endless : Lease.Endless On Behind) {opener opener' : F} {endlessRun : Nat}
    (behind : ∀ cursor, (RunOpener.openRun endlessRun (openerBefore opener endlessRun)).1 =
      .ok cursor → Behind ⟨endlessRun, cursor⟩) (count position : Nat)
    (some : s.Holds On ∨ position ≤ endlessRun ∧ endlessRun < position + count)
    (opened : openRuns count position (openerBefore opener position) s = (.ok (), opener', s')) :
    s'.Holds On := by
  induction count generalizing position s with
  | zero =>
    cases opened
    exact some.resolve_right (by omega)
  | succ count ih =>
    have next := opener_openRun position (openerBefore opener position) s
    unfold openRuns at opened
    split at opened
    · rename_i scheduled first
      have here : position = endlessRun → scheduled.Holds On := by
        rintro rfl
        exact holds_openRun endless behind first
      have kept := fun holds : s.Holds On => holds.openRun position (openerBefore opener position)
      rw [first] at next kept
      obtain rfl := next
      refine ih (position + 1) ?_ opened
      rcases some with holds | ⟨low, high⟩
      · exact .inl (kept holds)
      · rcases Nat.eq_or_lt_of_le low with same | low
        · exact .inl (here same)
        · exact .inr ⟨low, by omega⟩
    · split at opened <;> cases opened

end Schedule

end IndexMerge
