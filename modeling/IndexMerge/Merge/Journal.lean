import IndexMerge.Notice

/-!
# Journals

What a merge shows of what it did: the positions at which it opened cursors, those whose cursors it
was done with, and what it told, in order. A journal does not hold the cursors, so that they were
closed is not to be read off it, but off the ledger that it shows.
-/

namespace IndexMerge

/-- Something that a merge did. -/
inductive Event where
  | opened (position : Nat)
  | closed (position : Nat)
  | told (notice : Notice)
  deriving DecidableEq, Repr

/-- What a merge did, in order. -/
structure Journal where
  events : Array Event
  deriving DecidableEq, Repr, Inhabited

namespace Journal

/-- A journal without events. -/
def empty : Journal := ⟨#[]⟩

/-- Writes down an event. -/
def record (journal : Journal) (event : Event) : Journal := ⟨journal.events.push event⟩

/-- Writes down what was told. -/
def tell (journal : Journal) (notice : Notice) : Journal := journal.record (.told notice)

/-- The positions at which cursors were opened. -/
def opened (journal : Journal) : List Nat :=
  journal.events.toList.filterMap fun
    | .opened position => some position
    | _ => none

/-- The positions whose cursors were closed. -/
def closed (journal : Journal) : List Nat :=
  journal.events.toList.filterMap fun
    | .closed position => some position
    | _ => none

/-- What was told. -/
def notices (journal : Journal) : List Notice :=
  journal.events.toList.filterMap fun
    | .told notice => some notice
    | _ => none

end Journal

end IndexMerge
