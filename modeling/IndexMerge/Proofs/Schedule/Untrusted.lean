import IndexMerge.Proofs.Run.Untrusted
import IndexMerge.Proofs.Schedule.Each
import IndexMerge.Proofs.Schedule.Merged
import IndexMerge.Run.Opener

/-!
# Schedules of any files

Nothing is assumed of the files from which runs are opened. A scheduled cursor still reads the file
at its position, whose header has this number, and stands on a term behind all that were taken
before (`Waiting`). Opening runs, taking a group and bringing cursors back keep to this.
-/

namespace IndexMerge

variable {store : FileStore} {paths : Array String} {last : Option Term} {term : Term}

namespace Lease

variable {lease lease' : Lease StoredCursor}

/-- The cursor reads the file at its position, which has this number in its header. -/
def Stems (store : FileStore) (paths : Array String) (lease : Lease StoredCursor) : Prop :=
  lease.runIndex = lease.position ∧ ∃ path, paths[lease.position]? = some path ∧
    RunFiles.readHeader store path = .ok lease.cursor.header

theorem Stems.of_header (h : lease.Stems store paths) (position : lease'.position = lease.position)
    (header : lease'.cursor.header = lease.cursor.header) : lease'.Stems store paths := by
  obtain ⟨number, path, listed, read⟩ := h
  have same : lease'.runIndex = lease.runIndex := congrArg (·.runIndex.toNat) header
  refine ⟨by rw [same, number, position], path, ?_, ?_⟩
  · rw [position, listed]
  · rw [header, read]

/-- The cursor stands on a term. -/
structure StandsOn (store : FileStore) (paths : Array String) (term : Term)
    (lease : Lease StoredCursor) : Prop where
  stems : lease.Stems store paths
  isPositioned : lease.cursor.isPositioned = true
  term_eq : lease.term = term

theorem StandsOn.of_standing (h : lease.StandsOn store paths term)
    (same : lease'.standing = lease.standing) : lease'.StandsOn store paths term := by
  obtain ⟨position, cursor⟩ := Prod.mk.inj same
  obtain ⟨header, cursor⟩ := Prod.mk.inj cursor
  obtain ⟨here, positioned⟩ := Prod.mk.inj cursor
  exact ⟨h.stems.of_header position header, positioned.trans h.isPositioned,
    here.trans h.term_eq⟩

/-- The cursor stands on a term behind the last one that was taken, if there is one. -/
structure Waits (store : FileStore) (paths : Array String) (last : Option Term)
    (lease : Lease StoredCursor) : Prop where
  stands : lease.StandsOn store paths lease.term
  follows : ∀ term, last = some term → term.precedes lease.term = true

/-- A cursor that goes on from a term waits behind it. -/
theorem StandsOn.advance {cursor : StoredCursor} (h : lease.StandsOn store paths term)
    (advanced : RunCursor.advance lease.cursor = (.ok (), cursor)) :
    Waits store paths (some term) { lease with cursor } := by
  have ⟨header, positioned, follows⟩ := StoredCursor.advance_eq_ok advanced
  refine ⟨⟨h.stems.of_header rfl header, positioned, rfl⟩, ?_⟩
  rintro _ same
  cases same
  rw [← h.term_eq]
  exact follows h.isPositioned

/-- A cursor that goes to its first entry waits. -/
theorem Stems.advance {cursor : StoredCursor} (h : lease.Stems store paths)
    (advanced : RunCursor.advance lease.cursor = (.ok (), cursor)) :
    Waits store paths none { lease with cursor } := by
  have ⟨header, positioned, _⟩ := StoredCursor.advance_eq_ok advanced
  exact ⟨⟨h.of_header rfl header, positioned, rfl⟩, by simp⟩

end Lease

namespace RunFiles

variable {files : RunFiles} {position : Nat}

theorem store_accept (path : String) (header : RunHeader) :
    (accept position path header files).2.store = files.store ∧
      (accept position path header files).2.paths = files.paths := by
  unfold accept
  split
  · exact ⟨rfl, rfl⟩
  · split
    · exact ⟨rfl, rfl⟩
    · dsimp only
      split
      · exact ⟨rfl, rfl⟩
      · split <;> exact ⟨rfl, rfl⟩

/-- Files that are opened stay where they are, and nothing is told of merged terms. -/
theorem store_openRun (position : Nat) (files : RunFiles) :
    (openRun position files).2.2.store = files.store ∧
      (openRun position files).2.2.paths = files.paths ∧
      ∀ notice ∈ (openRun position files).2.1, (Event.told notice).merged = none := by
  unfold openRun
  split
  · exact ⟨rfl, rfl, by simp⟩
  · dsimp only
    split
    · exact ⟨rfl, rfl, by simp [Event.merged]⟩
    · rename_i path _ _ cursor _
      obtain ⟨store, paths⟩ := @store_accept files position path cursor.header
      split <;> rename_i accepted <;> rw [accepted] at store paths <;>
        exact ⟨store, paths, by simp [Event.merged]⟩

/-- A cursor that is opened is one over the file at its position. -/
theorem openFile_of_openRun {cursor : StoredCursor}
    (opened : (openRun position files).1 = .ok cursor) :
    ∃ path, files.paths[position]? = some path ∧ openFile files.store path = .ok cursor := by
  unfold openRun at opened
  split at opened
  · cases opened
  · rename_i path listed
    dsimp only at opened
    split at opened
    · cases opened
    · rename_i opened'
      split at opened <;> cases opened
      exact ⟨path, listed, opened'⟩

/-- A cursor that is opened reads the file at its position. -/
theorem readHeader_of_openRun {cursor : StoredCursor}
    (opened : (openRun position files).1 = .ok cursor) :
    ∃ path, files.paths[position]? = some path ∧
      readHeader files.store path = .ok cursor.header := by
  obtain ⟨path, listed, opened'⟩ := openFile_of_openRun opened
  refine ⟨path, listed, ?_⟩
  unfold readHeader
  rw [opened']
  rfl

end RunFiles

namespace Schedule

variable {s s' : Schedule StoredCursor} {lease : Lease StoredCursor}

/-- All scheduled cursors wait behind the last term that was taken. -/
structure Waiting (store : FileStore) (paths : Array String) (last : Option Term)
    (heap : Heap (Lease.before (C := StoredCursor))) : Prop where
  ordered : heap.IsOrdered
  each : ∀ lease ∈ heap.toList, lease.Waits store paths last

theorem Waiting.empty : Waiting store paths last .empty :=
  ⟨Heap.isOrdered_empty, by simp⟩

/-- Nothing waits when everything was released. -/
theorem Waiting.releaseAll (s : Schedule StoredCursor) :
    Waiting store paths last (releaseAll s).2.heap := by
  unfold Schedule.releaseAll
  split <;> exact .empty

theorem Waiting.push {heap : Heap (Lease.before (C := StoredCursor))}
    (h : Waiting store paths last heap) (waits : lease.Waits store paths last) :
    Waiting store paths last (heap.push lease) := by
  constructor
  · exact Heap.isOrdered_push Lease.heapOrder h.ordered lease
  · exact Each.push h.each waits

/-- The group that is taken stands on its term, and the others wait behind it. -/
theorem Waiting.popGroup {first : Lease StoredCursor} {rest : List (Lease StoredCursor)}
    (h : Waiting store paths last s.heap) (popped : s.popGroup = some (first, rest, s')) :
    (∀ lease ∈ first :: rest, lease.StandsOn store paths first.term) ∧
      (∀ term, last = some term → term.precedes first.term = true) ∧
      Waiting store paths (some first.term) s'.heap ∧ s'.ledger = s.ledger := by
  have ⟨_, group, ledger⟩ := group_popGroup h.ordered popped
  obtain ⟨held, behind⟩ := Each.popGroup h.each popped
  refine ⟨fun lease member => ?_, (held first (by simp)).follows, ⟨group.ordered, ?_⟩, ledger⟩
  · rw [← group.terms lease member]
    exact (held lease member).stands
  · intro lease member
    refine ⟨(behind lease member).stands, ?_⟩
    rintro _ same
    cases same
    exact group.greater lease member

/-- A cursor that comes back waits behind the term on which it stood. -/
theorem Waiting.requeue (h : Waiting store paths (some term) s.heap)
    (stands : lease.StandsOn store paths term) :
    Waiting store paths (some term) (requeue lease s).2.heap := by
  unfold Schedule.requeue
  split
  · split
    · rename_i advanced
      exact h.push (stands.advance advanced)
    · exact h
  · exact h

theorem Waiting.requeueAll {leases : List (Lease StoredCursor)}
    (h : Waiting store paths (some term) s.heap)
    (stand : ∀ lease ∈ leases, lease.StandsOn store paths term) :
    Waiting store paths (some term) (requeueAll leases s).2.heap := by
  refine requeueAll_keeps (P := fun s => Waiting store paths (some term) s.heap) ?_ ?_ h
  · exact fun lease member _ waiting => waiting.requeue (stand lease member)
  · exact fun _ _ waiting => waiting

/-- Runs were opened, and no term was merged yet. -/
structure Opened (store : FileStore) (paths : Array String) (s : Schedule StoredCursor) :
    Prop where
  waiting : Waiting store paths none s.heap
  unmerged : s.journal.merged = []

theorem Opened.empty : Opened store paths .empty :=
  ⟨.empty, congrArg Journal.merged Ledger.journal_empty⟩

theorem Opened.tellAll (h : Opened store paths s) {notices : List Notice}
    (quiet : ∀ notice ∈ notices, (Event.told notice).merged = none) :
    Opened store paths (notices.foldl tell s) := by
  induction notices generalizing s with
  | nil => exact h
  | cons notice notices ih =>
    refine ih ⟨h.waiting, ?_⟩ fun other member => quiet other (List.mem_cons_of_mem _ member)
    simp [tell, h.unmerged, quiet notice (List.mem_cons_self ..)]

theorem Opened.enlist (h : Opened store paths s)
    (read : ∃ path, paths[lease.position]? = some path ∧
      RunFiles.readHeader store path = .ok lease.cursor.header) :
    Opened store paths (enlist lease s).2 := by
  unfold Schedule.enlist
  by_cases number : lease.runIndex = lease.position
  · rw [if_neg (not_not_intro number)]
    split
    · refine ⟨h.waiting, (Lease.merged_release _ _).trans ?_⟩
      simp [tell, h.unmerged, Event.merged]
    · split
      · rename_i advanced
        have stems : lease.Stems store paths := ⟨number, read⟩
        exact ⟨h.waiting.push (stems.advance advanced), h.unmerged⟩
      · exact ⟨h.waiting, (Lease.merged_abandonAll _ _).trans h.unmerged⟩
  · rw [if_pos number]
    exact ⟨h.waiting, (Lease.merged_abandonAll _ _).trans h.unmerged⟩

theorem Opened.openRun {files : RunFiles} (h : Opened files.store files.paths s)
    (position : Nat) :
    Opened files.store files.paths (openRun position files s).2.2 ∧
      (openRun position files s).2.1.store = files.store ∧
      (openRun position files s).2.1.paths = files.paths := by
  have same : RunOpener.openRun position files = RunFiles.openRun position files := rfl
  have ⟨store, paths, quiet⟩ := RunFiles.store_openRun position files
  have told := h.tellAll quiet
  have read := @RunFiles.readHeader_of_openRun files position
  unfold Schedule.openRun
  rw [same]
  rcases result : RunFiles.openRun position files with ⟨_ | cursor, notices, files'⟩ <;>
    rw [result] at store paths told read
  · exact ⟨told, store, paths⟩
  · refine ⟨enlist ⟨told.waiting, ?_⟩ (read rfl), store, paths⟩
    simp [told.unmerged, Deed.event, Event.merged]

/-- Whether or not all runs can be opened, the cursors that are scheduled wait. -/
theorem Opened.openRuns {files : RunFiles} (h : Opened files.store files.paths s) (count : Nat)
    (position : Nat) : Opened files.store files.paths (openRuns count position files s).2.2 := by
  induction count generalizing position files s with
  | zero => exact h
  | succ count ih =>
    have ⟨next, store, paths⟩ := h.openRun position
    unfold Schedule.openRuns
    split <;> rename_i opened <;> rw [opened] at next store paths <;> dsimp only at next store paths
    · rw [← store, ← paths] at next ⊢
      exact ih next (position + 1)
    · have released : Opened files.store files.paths (releaseAll _).2 :=
        ⟨.releaseAll _, (merged_releaseAll _).trans next.unmerged⟩
      split <;> rename_i gone <;> rw [gone] at released
      · exact released
      · refine ⟨released.waiting, ?_⟩
        simp [tell, released.unmerged, Event.merged]

/-- Whatever the files hold, the cursors that a started schedule holds wait. -/
theorem opened_start (count : Nat) (files : RunFiles) :
    Opened files.store files.paths (start count files).2.2 :=
  Opened.empty.openRuns count 0

end Schedule

end IndexMerge
