import IndexMerge.Merge.Journal

/-!
# Ledgers

What a merge did, with the cursors that it did it to: each cursor as it was opened, and as it was
left when its lease ended. Nothing in a ledger says that a cursor was closed. That shows in the
cursor that was left, because closing changed it, and nowhere else.
-/

namespace IndexMerge

/-- Something that a merge did, with the cursor to which it was done. -/
inductive Deed (C : Type) where
  | opened (position : Nat) (cursor : C)
  | ended (position : Nat) (cursor : C)
  | told (notice : Notice)
  deriving DecidableEq, Repr

/-- What is shown of a deed. A lease closes its cursor before it ends. -/
def Deed.event {C : Type} : Deed C → Event
  | .opened position _ => .opened position
  | .ended position _ => .closed position
  | .told notice => .told notice

/-- What a merge did with its cursors, in order. -/
structure Ledger (C : Type) where
  deeds : Array (Deed C)
  deriving DecidableEq, Repr, Inhabited

namespace Ledger

variable {C : Type}

/-- A ledger without deeds. -/
def empty : Ledger C := ⟨#[]⟩

/-- Writes down a deed. -/
def record (ledger : Ledger C) (deed : Deed C) : Ledger C := ⟨ledger.deeds.push deed⟩

/-- Writes down what was told. -/
def tell (ledger : Ledger C) (notice : Notice) : Ledger C := ledger.record (.told notice)

/-- The cursors that were opened, each with its position. -/
def given (ledger : Ledger C) : List (Nat × C) :=
  ledger.deeds.toList.filterMap fun
    | .opened position cursor => some (position, cursor)
    | _ => none

/-- The cursors whose leases ended, each with its position and as it was left. -/
def left (ledger : Ledger C) : List (Nat × C) :=
  ledger.deeds.toList.filterMap fun
    | .ended position cursor => some (position, cursor)
    | _ => none

/-- What is shown of a ledger. -/
def journal (ledger : Ledger C) : Journal := ⟨ledger.deeds.map Deed.event⟩

@[simp] theorem given_record_opened (ledger : Ledger C) (position : Nat) (cursor : C) :
    (ledger.record (.opened position cursor)).given = ledger.given ++ [(position, cursor)] := by
  simp [given, record]

@[simp] theorem given_record_ended (ledger : Ledger C) (position : Nat) (cursor : C) :
    (ledger.record (.ended position cursor)).given = ledger.given := by
  simp [given, record]

@[simp] theorem left_record_opened (ledger : Ledger C) (position : Nat) (cursor : C) :
    (ledger.record (.opened position cursor)).left = ledger.left := by
  simp [left, record]

@[simp] theorem left_record_ended (ledger : Ledger C) (position : Nat) (cursor : C) :
    (ledger.record (.ended position cursor)).left = ledger.left ++ [(position, cursor)] := by
  simp [left, record]

@[simp] theorem given_tell (ledger : Ledger C) (notice : Notice) :
    (ledger.tell notice).given = ledger.given := by
  simp [given, tell, record]

@[simp] theorem left_tell (ledger : Ledger C) (notice : Notice) :
    (ledger.tell notice).left = ledger.left := by
  simp [left, tell, record]

@[simp] theorem journal_empty : (empty : Ledger C).journal = .empty := by
  simp [journal, empty, Journal.empty]

@[simp] theorem journal_record (ledger : Ledger C) (deed : Deed C) :
    (ledger.record deed).journal = ledger.journal.record deed.event := by
  simp [journal, record, Journal.record]

@[simp] theorem journal_tell (ledger : Ledger C) (notice : Notice) :
    (ledger.tell notice).journal = ledger.journal.tell notice :=
  journal_record ledger (.told notice)

/-- The journal shows the positions of the cursors that were opened. -/
theorem opened_journal (ledger : Ledger C) :
    ledger.journal.opened = ledger.given.map Prod.fst := by
  obtain ⟨⟨deeds⟩⟩ := ledger
  simp only [journal, Journal.opened, given, List.map_toArray]
  rw [List.filterMap_map, List.map_filterMap]
  congr 1
  funext deed
  cases deed <;> rfl

/-- The journal shows the positions of the cursors whose leases ended. -/
theorem closed_journal (ledger : Ledger C) :
    ledger.journal.closed = ledger.left.map Prod.fst := by
  obtain ⟨⟨deeds⟩⟩ := ledger
  simp only [journal, Journal.closed, left, List.map_toArray]
  rw [List.filterMap_map, List.map_filterMap]
  congr 1
  funext deed
  cases deed <;> rfl

end Ledger

end IndexMerge
