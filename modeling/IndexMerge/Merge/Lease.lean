import IndexMerge.Merge.Ledger
import IndexMerge.Run.Cursor

/-!
# Leases

A cursor that has to be closed. A lease is released, which closes its cursor and reports if that
fails, and then it is dropped; or it is dropped without a release because of another failure. The
drop of a lease that was not released closes the cursor, and that this fails is only told.
-/

namespace IndexMerge

/-- A cursor that is open, and the position at which it was opened. -/
structure Lease (C : Type) where
  position : Nat
  cursor : C

namespace Lease

variable {C : Type} [RunCursor C]

/-- The term on which the cursor stands. -/
def term (lease : Lease C) : Term := RunCursor.term lease.cursor

/-- The number of the cursor's run. -/
def runIndex (lease : Lease C) : Nat := RunCursor.runIndex lease.cursor

/-- Whether a lease is consumed strictly before another. -/
def before (a b : Lease C) : Bool :=
  (compareRunKeys a.term a.runIndex b.term b.runIndex).isLT

/-- Ends the lease. Its cursor is closed, unless it was released, and is kept as it is left. -/
def drop (isReleased : Bool) (lease : Lease C) (ledger : Ledger C) : Ledger C :=
  if isReleased then ledger.record (.ended lease.position lease.cursor)
  else
    let (result, cursor) := RunCursor.close lease.cursor
    let ledger := ledger.record (.ended lease.position cursor)
    match result with
    | .ok () => ledger
    | .error e => ledger.tell (.closeFailed (RunCursor.runIndex cursor) e)

/-- Closes the cursor and ends the lease. -/
def release (lease : Lease C) : Attempt Error (Ledger C) Unit := fun ledger =>
  let (result, cursor) := RunCursor.close lease.cursor
  (result, drop true { lease with cursor } ledger)

theorem release_apply (lease : Lease C) (ledger : Ledger C) :
    lease.release ledger = ((RunCursor.close lease.cursor).1,
      ledger.record (.ended lease.position (RunCursor.close lease.cursor).2)) := rfl

/-- Ends the lease after another failure. -/
def abandon (lease : Lease C) (ledger : Ledger C) : Ledger C := lease.drop false ledger

/-- Ends several leases after another failure. -/
def abandonAll (leases : List (Lease C)) (ledger : Ledger C) : Ledger C :=
  leases.foldl (fun ledger lease => lease.abandon ledger) ledger

/-- Releases several leases. The first failure is given, later ones are told. -/
def releaseAll (leases : List (Lease C)) (ledger : Ledger C) : Option Error × Ledger C :=
  leases.foldl (fun (first, ledger) lease =>
    let run := lease.runIndex
    match lease.release ledger, first with
    | (.ok (), ledger), first => (first, ledger)
    | (.error e, ledger), none => (some e, ledger)
    | (.error e, ledger), some first => (some first, ledger.tell (.closeFailed run e)))
    (none, ledger)

/-- The postings of the lease's entry. -/
instance : PostingSource (Lease C) where
  next lease :=
    let (result, cursor) := RunCursor.nextPosting lease.cursor
    (result, { lease with cursor })
  left lease := RunCursor.postingsLeft lease.cursor
  left_next := by
    intro s s' p h
    obtain ⟨given, rfl⟩ := Prod.mk.inj h
    exact RunCursor.postingsLeft_nextPosting (Prod.ext given rfl)

/-- Begins to give the postings of the lease's entry. -/
def openPostings (lease : Lease C) : Lease C :=
  { lease with cursor := RunCursor.openPostings lease.cursor }

/-- A bound on the number of entries that the lease can still be consumed at. -/
def cost (lease : Lease C) : Nat := RunCursor.entriesLeft lease.cursor + 1

end Lease

end IndexMerge
