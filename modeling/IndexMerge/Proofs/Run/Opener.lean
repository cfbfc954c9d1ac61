import IndexMerge.Proofs.Run.Spill
import IndexMerge.Proofs.Schedule.Coverage
import IndexMerge.Run.Opener

/-!
# Opening stored runs

Files that hold stored runs in their order are accepted one after another if the documents of each
run lie before those of the runs behind it, and the cursors over them go over the entries of these
runs (`opens_files`). The documents of every term ascend over such runs
(`ascending_mergedPostings`).
-/

namespace IndexMerge

namespace Run

/-- All documents of a run lie before those of another. -/
def Before (run other : Run) : Prop :=
  ∀ range ∈ run.docRange, ∀ next ∈ other.docRange, range.2 < next.1

instance : DecidableRel Before := fun run other =>
  decidable_of_iff
    (run.docRange.all fun range => other.docRange.all fun next => range.2 < next.1)
    (by simp [Before, Option.all_eq_true])

/-- A file holds a run that can be stored. -/
structure StoredAt (store : FileStore) (path : String) (index : Nat) (layout : Layout)
    (run : Run) : Prop where
  spillable : run.Spillable index layout
  bytes : ∃ header, run.header = .ok header ∧
    store.read? path = some (storedBytes header run).toArray

end Run

variable {layout : Layout} {runs : List Run}

/-- What a path is read as, if it names a file. -/
theorem FileStore.openSource_eq_ok {store : FileStore} {path : String} {bytes : Array UInt8}
    (read : store.read? path = some bytes) :
    store.openSource path = .ok (.ofList bytes.toList) := by
  unfold read? at read
  unfold openSource
  split at read
  · rename_i found
    cases read
    rw [found]
  · cases read

/-- The header of a run that is not empty has the range of its documents. -/
theorem Run.Describes.range_of_isEmpty {header : RunHeader} {run : Run} {index : Nat}
    (describes : Describes header index run) (sound : run.Sound index layout)
    (some : ¬header.isEmpty = true) :
    ∃ range, run.docRange = .some range ∧ header.firstDoc = range.1 ∧ header.lastDoc = range.2 := by
  obtain ⟨e, listed⟩ : ∃ e, e ∈ run.entries.toList := by
    refine List.exists_mem_of_ne_nil _ fun none => some ?_
    have count := describes.count_eq
    rw [← Array.length_toList, none, List.length_nil] at count
    rw [RunHeader.isEmpty, beq_iff_eq]
    exact UInt32.toNat_inj.mp count
  obtain ⟨range, found, -⟩ := docRange_isSome sound.entries listed
  exact ⟨range, found, describes.range_eq range found⟩

/-- The documents of a term ascend over runs that lie one before another. -/
theorem ascending_mergedPostings
    (sound : ∀ run ∈ runs, ∀ e ∈ run.entries.toList, e.Sound layout)
    (before : runs.Pairwise Run.Before) (term : Term) :
    isAscending ((mergedPostings runs term).map Posting.docId) = true := by
  rw [isAscending_iff_pairwise, List.pairwise_map, mergedPostings, List.pairwise_flatMap]
  constructor
  · rintro ⟨i, e⟩ member
    obtain ⟨run, listed, found, -⟩ := mem_entriesOf member
    have entry := sound run listed e (Array.mem_toList_iff.mpr (Run.mem_of_find? found))
    exact List.pairwise_map.mp (isAscending_iff_pairwise.mp entry.ascending)
  · unfold entriesOf
    refine List.pairwise_filterMap.mpr (before.imp_of_mem ?_)
    rintro run other listed later before ⟨i, e⟩ here ⟨j, f⟩ there p member q follows
    obtain ⟨_, found, same⟩ := Option.map_eq_some_iff.mp here
    cases same
    obtain ⟨_, found', same⟩ := Option.map_eq_some_iff.mp there
    cases same
    obtain ⟨range, has, -, high⟩ := Run.docRange_bounds (sound run listed)
      (Array.mem_toList_iff.mpr (Run.mem_of_find? found)) member
    obtain ⟨next, has', low, -⟩ := Run.docRange_bounds (sound other later)
      (Array.mem_toList_iff.mpr (Run.mem_of_find? found')) follows
    have apart := before range has next has'
    rw [UInt32.lt_iff_toNat_lt] at apart ⊢
    rw [UInt32.le_iff_toNat_le] at high low
    omega

namespace RunFiles

variable {files : RunFiles} {position : Nat} {run : Run}

/-- Files are opened whose layout is known if any is, and where a document that was noted lies
before those of all runs to come. -/
structure Agree (layout : Layout) (runs : List Run) (files : RunFiles) : Prop where
  layout_eq : ∀ known, files.layout = some known → known = layout
  last : ∀ noted, files.last = some noted → ∀ run ∈ runs, ∀ range, run.docRange = some range →
    noted.2 < range.1

theorem checkRange_eq_ok {header : RunHeader}
    (follows : ∀ noted, files.last = some noted → noted.2 < header.firstDoc) (position : Nat) :
    files.checkRange position header = .ok () := by
  unfold checkRange
  cases found : files.last with
  | none => rfl
  | some noted =>
    have apart := UInt32.not_le.mpr (follows noted found)
    dsimp only
    rw [if_neg (by simp [apart])]

/-- A header that describes the next run is accepted. -/
theorem accept_eq_ok {header : RunHeader} (path : String) (agree : files.Agree layout (run :: runs))
    (sound : run.Sound position layout) (describes : Run.Describes header position run)
    (before : ∀ other ∈ runs, run.Before other) :
    ∃ files', accept position path header files = (.ok (), files') ∧
      files'.store = files.store ∧ files'.paths = files.paths ∧ files'.Agree layout runs := by
  have same : header.layout = layout := describes.layout_eq.trans sound.layout_eq
  have known : files.layout.filter (· ≠ header.layout) = none := by
    cases found : files.layout with
    | none => rfl
    | some known => simp [Option.filter_some, agree.layout_eq known found, same]
  have shared : ∀ known, some header.layout = some known → known = layout := by
    intro known found
    rw [← Option.some.inj found, same]
  unfold accept
  rw [if_neg (fun differ => differ describes.index_eq), known]
  dsimp only
  by_cases empty : header.isEmpty = true
  · rw [if_pos empty]
    refine ⟨_, rfl, rfl, rfl, shared, fun noted found other listed => ?_⟩
    exact agree.last noted found other (List.mem_cons_of_mem _ listed)
  · rw [if_neg empty]
    obtain ⟨range, found, first, last⟩ := describes.range_of_isEmpty sound empty
    rw [checkRange_eq_ok (fun noted has => ?_)]
    · refine ⟨_, rfl, rfl, rfl, shared, fun noted has other listed next later => ?_⟩
      rw [← Option.some.inj has]
      dsimp only
      rw [last]
      exact before other listed range found next later
    · rw [first]
      exact agree.last noted has run (List.mem_cons_self ..) range found

/-- Files that hold stored runs one before another are opened as these runs. -/
theorem opens_files {runs : List Run}
    (stored : ∀ k (hk : k < runs.length), ∃ path, files.paths[position + k]? = some path ∧
      runs[k].StoredAt files.store path (position + k) layout)
    (before : runs.Pairwise Run.Before) (agree : files.Agree layout runs) :
    Schedule.Opens files position runs := by
  induction runs generalizing files position with
  | nil => exact trivial
  | cons run runs ih =>
    have here : ∃ path, files.paths[position]? = some path ∧
        run.StoredAt files.store path position layout := stored 0 (Nat.succ_pos _)
    obtain ⟨path, listed, spillable, header, made, bytes⟩ := here
    have ⟨first, rest⟩ := List.pairwise_cons.mp before
    obtain ⟨_, made', describes⟩ :=
      Run.header_eq_ok spillable.sound spillable.index_lt spillable.terms
    obtain rfl := Except.ok.inj (made.symm.trans made')
    obtain ⟨cursor, started, same, walks⟩ := Run.start_eq_ok describes path spillable position
    obtain ⟨files', accepted, store, paths, agree⟩ :=
      accept_eq_ok path agree spillable.sound describes first
    have opened : openFile files.store path = .ok cursor := by
      rw [openFile, FileStore.openSource_eq_ok bytes]
      exact started
    have index : run.index = position := spillable.sound.index_eq
    refine ⟨index, cursor, [.openingRun position path], files', ?_, ?_, ?_⟩
    · show openRun position files = _
      rw [openRun, listed]
      dsimp only
      rw [opened]
      dsimp only
      rw [same, accepted]
    · rw [Lease.WalksOver, index]
      exact walks
    · refine ih (fun k hk => ?_) rest agree
      obtain ⟨next, found, there⟩ := stored (k + 1) (Nat.succ_lt_succ hk)
      rw [store, paths, Nat.add_assoc, Nat.add_comm 1 k]
      exact ⟨next, found, there⟩

end RunFiles

end IndexMerge
