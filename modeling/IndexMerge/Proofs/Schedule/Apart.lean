import IndexMerge.Proofs.Run.Untrusted
import IndexMerge.Proofs.Schedule.Each
import IndexMerge.Run.Opener

/-!
# Files whose ranges are verified

Nothing is assumed of the files from which runs are opened. If ranges are verified, the headers of
the cursors that are scheduled are those of runs that lie one before another, and not only of those
that were opened one after another (`apart_start`).
-/

namespace IndexMerge

/-- A run lies before another: its number is less, and its range of documents ends before the other
begins. -/
def RunHeader.Before (a b : RunHeader) : Prop :=
  a.runIndex < b.runIndex ∧ a.lastDoc < b.firstDoc

variable {headers : List RunHeader} {header : RunHeader} {position : Nat}

namespace RunFiles

variable {files files' : RunFiles}

/-- The runs with these headers were opened: they lie one before another and before those to
come. -/
structure Noted (headers : List RunHeader) (position : Nat) (files : RunFiles) : Prop where
  verify : files.verifyRanges = true
  apart : headers.Pairwise RunHeader.Before
  numbers : ∀ h ∈ headers, h.runIndex.toNat < position
  last : ∀ h ∈ headers, ∃ noted, files.last = some noted ∧ h.lastDoc ≤ noted.2

theorem Noted.start (store : FileStore) (paths : Array String) :
    (RunFiles.start store paths true).Noted [] 0 :=
  ⟨rfl, .nil, nofun, nofun⟩

/-- A header whose range is accepted lies behind all others. The run opened last that has terms ends
behind those opened before it, so it is enough that the range was compared with that of this run. -/
theorem Noted.behind (h : files.Noted headers position)
    (checked : files.checkRange position header = .ok ()) :
    ∀ other ∈ headers, other.lastDoc < header.firstDoc := by
  intro other member
  obtain ⟨noted, last, le⟩ := h.last other member
  unfold checkRange at checked
  rw [last] at checked
  dsimp only at checked
  split at checked
  · cases checked
  · rename_i apart
    rw [h.verify, Bool.true_and, decide_eq_true_iff] at apart
    exact UInt32.lt_of_le_of_lt le (UInt32.not_le.mp apart)

/-- A run behind all others is noted. -/
theorem Noted.push (h : files.Noted headers position) (number : header.runIndex.toNat = position)
    (range : header.firstDoc ≤ header.lastDoc)
    (behind : ∀ other ∈ headers, other.lastDoc < header.firstDoc) (layout : Option Layout) :
    Noted (headers ++ [header]) (position + 1)
      { files with layout, last := some (position, header.lastDoc) } := by
  refine ⟨h.verify, ?_, fun other member => ?_, fun other member => ⟨_, rfl, ?_⟩⟩
  · refine List.pairwise_append.mpr ⟨h.apart, List.pairwise_singleton .., fun a member b last => ?_⟩
    obtain rfl := List.mem_singleton.mp last
    exact ⟨UInt32.lt_iff_toNat_lt.mpr (number ▸ h.numbers a member), behind a member⟩
  · rcases List.mem_append.mp member with member | last
    · exact Nat.lt_succ_of_lt (h.numbers other member)
    · obtain rfl := List.mem_singleton.mp last
      exact number ▸ Nat.lt_succ_self _
  · rcases List.mem_append.mp member with member | last
    · exact UInt32.le_trans (UInt32.le_of_lt (behind other member)) range
    · obtain rfl := List.mem_singleton.mp last
      exact UInt32.le_refl _

/-- A header that is accepted is noted unless the run is empty. -/
theorem Noted.accept {path : String} (h : files.Noted headers position)
    (range : header.firstDoc ≤ header.lastDoc)
    (accepted : RunFiles.accept position path header files = (.ok (), files')) :
    ∃ headers', headers ⊆ headers' ∧ (header.isEmpty = false → header ∈ headers') ∧
      files'.Noted headers' (position + 1) := by
  unfold RunFiles.accept at accepted
  split at accepted
  · cases accepted
  · rename_i number
    split at accepted
    · cases accepted
    · dsimp only at accepted
      split at accepted
      · rename_i empty
        cases accepted
        refine ⟨headers, List.Subset.refl _, fun more => ?_, h.verify, h.apart,
          fun other member => Nat.lt_succ_of_lt (h.numbers other member), h.last⟩
        rw [empty] at more
        cases more
      · split at accepted
        · cases accepted
        · rename_i checked
          cases accepted
          have behind := h.behind checked
          exact ⟨headers ++ [header], List.subset_append_left .., fun _ => by simp,
            h.push (Decidable.of_not_not number) range behind _⟩

/-- The range of an opened run does not end before it begins, and a run that has a next entry is not
empty. -/
theorem of_openFile {store : FileStore} {path : String} {cursor : StoredCursor}
    (opened : openFile store path = .ok cursor) :
    cursor.header.firstDoc ≤ cursor.header.lastDoc ∧
      (cursor.hasNext = true → cursor.header.isEmpty = false) := by
  unfold openFile at opened
  split at opened
  · obtain ⟨header, _, read, rfl⟩ := StoredCursor.exists_of_start opened
    refine ⟨RunHeader.range_of_decode read, fun more => ?_⟩
    have more : (header.termCount.toNat != 0) = true := more
    exact beq_eq_false_iff_ne.mpr fun none => bne_iff_ne.mp more (congrArg UInt32.toNat none)
  · cases opened

/-- A run that is opened is noted unless it is empty. -/
theorem Noted.openRun {cursor : StoredCursor} {notices : List Notice}
    (h : files.Noted headers position)
    (opened : RunFiles.openRun position files = (.ok cursor, notices, files')) :
    ∃ headers', headers ⊆ headers' ∧ (cursor.hasNext = true → cursor.header ∈ headers') ∧
      files'.Noted headers' (position + 1) := by
  unfold RunFiles.openRun at opened
  split at opened
  · cases opened
  · dsimp only at opened
    split at opened
    · cases opened
    · rename_i read
      split at opened <;> rename_i accepted <;> cases opened
      have ⟨range, more⟩ := of_openFile read
      obtain ⟨headers', kept, listed, noted⟩ := h.accept range accepted
      exact ⟨headers', kept, fun next => listed (more next), noted⟩

end RunFiles

namespace Schedule

variable {files : RunFiles} {s s' : Schedule StoredCursor} {lease : Lease StoredCursor}

/-- The scheduled cursors are over runs with these headers. -/
def Listed (headers : List RunHeader) (heap : Heap (Lease.before (C := StoredCursor))) : Prop :=
  ∀ lease ∈ heap.toList, lease.cursor.header ∈ headers

theorem Listed.mono {headers' : List RunHeader} {heap : Heap (Lease.before (C := StoredCursor))}
    (h : Listed headers heap) (kept : headers ⊆ headers') : Listed headers' heap :=
  fun lease member => kept (h lease member)

/-- A cursor that goes on is over the run that it was over. -/
theorem leads_listed (listed : lease.cursor.header ∈ headers) :
    Leads (fun lease => lease.cursor.header ∈ headers) lease := by
  intro cursor advanced
  obtain ⟨header, -⟩ := StoredCursor.advance_eq_ok advanced
  show cursor.header ∈ headers
  exact header ▸ listed

theorem Listed.openRun {files' : RunFiles} (h : Listed headers s.heap)
    (noted : files.Noted headers position)
    (opened : openRun position files s = (.ok (), files', s')) :
    ∃ headers', files'.Noted headers' (position + 1) ∧ Listed headers' s'.heap := by
  unfold Schedule.openRun at opened
  have same : RunOpener.openRun position files = RunFiles.openRun position files := rfl
  rw [same] at opened
  rcases result : RunFiles.openRun position files with ⟨_ | cursor, notices, after⟩ <;>
    rw [result] at opened
  · cases opened
  · obtain ⟨headers', kept, listed, noted'⟩ := noted.openRun result
    have told : Listed headers' (notices.foldl tell s).heap := by
      rw [heap_foldl_tell]
      exact h.mono kept
    have enlisted := @Each.enlist _ _ _ { notices.foldl tell s with
      ledger := (notices.foldl tell s).ledger.record (.opened position cursor) } ⟨position, cursor⟩
      told fun more => leads_listed (listed more)
    dsimp only at opened
    generalize Schedule.enlist (C := StoredCursor) _ _ = outcome at opened enlisted
    obtain ⟨result, s''⟩ := outcome
    cases opened
    exact ⟨headers', noted', enlisted⟩

/-- Whether or not all runs can be opened, the cursors that are scheduled are over runs that lie one
before another. -/
theorem apart_openRuns (count : Nat) (h : Listed headers s.heap)
    (noted : files.Noted headers position) :
    ∃ headers' : List RunHeader, headers'.Pairwise RunHeader.Before ∧
      Listed headers' (openRuns count position files s).2.2.heap := by
  induction count generalizing headers position files s with
  | zero => exact ⟨headers, noted.apart, h⟩
  | succ count ih =>
    unfold openRuns
    split
    · rename_i opened
      obtain ⟨headers', noted', listed⟩ := h.openRun noted opened
      exact ih listed noted'
    · rename_i after _
      have released : Listed headers (releaseAll after).2.heap := each_releaseAll after
      split <;> rename_i gone <;> rw [gone] at released
      · exact ⟨headers, noted.apart, released⟩
      · exact ⟨headers, noted.apart, released⟩

theorem apart_start (store : FileStore) (paths : Array String) (count : Nat) :
    ∃ headers : List RunHeader, headers.Pairwise RunHeader.Before ∧
      Listed headers (start count (RunFiles.start store paths true)).2.2.heap :=
  apart_openRuns count Each.empty (.start store paths)

end Schedule

end IndexMerge
