import IndexMerge.Proofs.FileStore
import IndexMerge.Proofs.InvertedFile.Writer
import IndexMerge.Proofs.Lexicon.Read
import IndexMerge.Proofs.Merge.Memory
import IndexMerge.Proofs.Run.Opener

/-!
# Merging run files

Built runs over ascending ranges of documents are stored in files, merged from these files, and
read back from the lexicon and the inverted file of the merge (`readback_of_mergeRuns`): every term
once and in order, each with the statistics and the postings of all runs that hold it. There can be
as many runs as words of 32 bits for their numbers, and no more (`refuses_emptyRuns`).
-/

namespace IndexMerge

open FaithfulSink

variable {layout : Layout} {runs : List Run}

/-- Runs whose contents can be stored, each for itself and together: they were built at the places
of their numbers over ascending ranges of documents, and their counts and sizes in bytes fit the
words of the formats. -/
structure Storable (layout : Layout) (runs : List Run) : Prop where
  built : ∀ i (hi : i < runs.length), runs[i].Built i layout
  before : runs.Pairwise Run.Before
  terms : (vocabulary runs).length < UInt32.size
  postings : ∀ term ∈ vocabulary runs, (mergedPostings runs term).length < UInt32.size
  blocks : ∀ run ∈ runs, ∀ e ∈ run.entries.toList, ∀ p ∈ e.postings,
    p.blocks.length < UInt32.size
  sizes : ∀ run ∈ runs, ∀ e ∈ run.entries.toList,
    (e.postings.flatMap (Posting.encode layout)).length < UInt64.size
  places : (PostingWriter.listsCode layout (unionLists runs)).length < 8 * UInt64.size

namespace Storable

variable (storable : Storable layout runs) {i : Nat} (hi : i < runs.length)

include storable

theorem sound : runs[i].Sound i layout :=
  (storable.built i hi).sound

theorem mergeable : Mergeable layout runs := by
  refine mergeable_of_built storable.built (fun term _ => ?_) storable.postings
  have entries : ∀ run ∈ runs, ∀ e ∈ run.entries.toList, e.Sound layout := by
    intro run listed
    obtain ⟨i, hi, rfl⟩ := List.mem_iff_getElem.mp listed
    exact (storable.sound hi).entries
  exact ascending_mergedPostings entries storable.before term

/-- A run can be stored if its number is a word of 32 bits. -/
theorem spillable (number : i < UInt32.size) : runs[i].Spillable i layout := by
  have sound := storable.sound hi
  have listed : runs[i] ∈ runs := List.getElem_mem hi
  refine ⟨sound, number, ?_, ?_, storable.blocks _ listed, storable.sizes _ listed⟩
  · exact Nat.lt_of_le_of_lt (size_entries_le listed sound.ascending) storable.terms
  · intro e member
    have here : e.term ∈ vocabulary runs :=
      mem_vocabulary.mpr ⟨_, listed, List.mem_map_of_mem member⟩
    have le := length_postings_le listed sound.ascending member
    exact Nat.lt_of_le_of_lt le (storable.postings e.term here)

/-- Every run with such a number is stored in a fresh sink. -/
theorem spill_eq_ok {V : Type} [ByteSink V] [FaithfulSink V] {sink : V} (number : i < UInt32.size)
    (fresh : Fresh sink) : ∃ sink', runs[i].spill sink = (.ok (), sink') ∧
      ∃ header, runs[i].header = .ok header ∧ content sink' = Run.storedBytes header runs[i] := by
  have spillable := storable.spillable hi number
  obtain ⟨header, made, describes⟩ :=
    Run.header_eq_ok spillable.sound spillable.index_lt spillable.terms
  obtain ⟨sink', spilled, bytes⟩ := Run.spill_eq_ok fresh made
  exact ⟨sink', spilled, header, made, bytes⟩

/-- Files with what was stored of the runs are opened as these runs. -/
theorem opens {V : Type} [ByteSink V] [FaithfulSink V] {files : Nat → V}
    (numbers : runs.length ≤ UInt32.size) (fresh : ∀ i, Fresh (files i)) {store : FileStore}
    {paths : Array String}
    (stored : ∀ i (hi : i < runs.length), ∃ path, paths[i]? = some path ∧
      store.read? path = some (content (runs[i].spill (files i)).2).toArray) (verify : Bool) :
    Schedule.Opens (RunFiles.start store paths verify) 0 runs := by
  have agree : (RunFiles.start store paths verify).Agree layout runs := by
    constructor <;> simp [RunFiles.start]
  refine RunFiles.opens_files (fun i hi => ?_) storable.before agree
  obtain ⟨path, listed, bytes⟩ := stored i hi
  have number := Nat.lt_of_lt_of_le hi numbers
  obtain ⟨sink', spilled, header, made, same⟩ := storable.spill_eq_ok hi number (fresh i)
  rw [spilled, same] at bytes
  rw [Nat.zero_add]
  exact ⟨path, listed, storable.spillable hi number, header, made, bytes⟩

end Storable

section ReadBack

open PostingWriter (listsCode view)

variable {W : Type} [ByteSink W] [FaithfulSink W] {statistics : Term → TermStatistics}
  {w : PostingWriter W}

/-- The entries of a union can be read back if their places are words of 64 bits. -/
theorem storable_unionEntries (plan : UnionPlan layout runs statistics)
    (places : (listsCode layout (unionLists runs)).length < 8 * UInt64.size) :
    ∀ e ∈ unionEntries (view W layout).place statistics runs, e.Storable layout := by
  intro e listed
  obtain ⟨k, hk, rfl⟩ := List.mem_iff_getElem.mp listed
  have here := hk
  rw [length_unionEntries] at here
  have follows :=
    @follows_unionEntries (view W layout).place statistics runs layout k plan.toEntryPlan here
  rw [getElem_unionEntries hk here]
  refine ⟨follows.length_le, follows.fields, _, _, rfl, rfl, ?_, ?_⟩
  · show (listsCode layout ((unionLists runs).take k)).length / 8 < UInt64.size
    rw [← List.take_append_drop k (unionLists runs), listsCode, List.flatMap_append,
      List.length_append] at places
    rw [listsCode]
    omega
  · exact Nat.mod_lt _ (by decide)

/-- The list of a term is read back from the place in its entry. -/
theorem readPostings_unionLists (plan : UnionPlan layout runs statistics)
    (closed : (view W layout).Closed w (unionLists runs))
    (blocks : ∀ run ∈ runs, ∀ e ∈ run.entries.toList, ∀ p ∈ e.postings,
      p.blocks.length < UInt32.size) {k : Nat} (hk : k < (vocabulary runs).length) :
    readPostings (content w.bits.sink).toArray ((view W layout).place ((unionLists runs).take k))
      (statistics (vocabulary runs)[k]).documentFrequency.toNat layout =
      .ok (mergedPostings runs (vocabulary runs)[k]) := by
  have here : (vocabulary runs)[k] ∈ vocabulary runs := List.getElem_mem hk
  have inside : k < (unionLists runs).length := by rwa [length_unionLists]
  have count : (statistics (vocabulary runs)[k]).documentFrequency.toNat =
      (mergedPostings runs (vocabulary runs)[k]).length := by
    rw [plan.statistics_eq here]
    exact TermStatistics.documentFrequency_ofPostings (plan.combinable.short _)
  have short : ∀ p ∈ mergedPostings runs (vocabulary runs)[k], p.blocks.length < UInt32.size := by
    intro p member
    obtain ⟨⟨i, e⟩, found, member⟩ := List.mem_flatMap.mp member
    obtain ⟨run, listed, found, -⟩ := mem_entriesOf found
    exact blocks run listed e (Array.mem_toList_iff.mpr (Run.mem_of_find? found)) p member
  have read := PostingWriter.readPostings_of_closed closed inside
  rw [getElem_unionLists inside hk] at read
  rw [count]
  exact read plan.combinable.fits short (plan.documents _)

end ReadBack

/-- Runs over ascending ranges of documents, and no more of them than there are words of 32 bits,
can be stored, merged from their files over sinks that never fail, and read back. Every run is
stored. The merge of the files gives one entry for each term of the runs and keeps all postings,
whatever the capacities, and the lexicon can be finished. A reader of the lexicon gives the entries
of the union, with the terms in ascending order, numbers from zero on and the statistics of all runs
that hold the term, and nothing behind them. At the place of each entry the inverted file has the
postings of all these runs. -/
theorem readback_of_mergeRuns {V W X : Type} [ByteSink V] [FaithfulSink V] [ByteSink W]
    [FaithfulSink W] [ByteSink X] [FaithfulSink X] {runs : Array Run} {files : Nat → V} {lists : W}
    {terms : X} (storable : Storable layout runs.toList) (numbers : runs.size ≤ UInt32.size)
    (freshFiles : ∀ i, Fresh (files i)) (freshLists : Fresh lists) (freshTerms : Fresh terms) :
    (∀ i (hi : i < runs.size), (runs[i].spill (files i)).1 = .ok ()) ∧
    ∀ (store : FileStore) (paths : Array String) (verifyRanges : Bool)
      (listsCapacity termsCapacity : Nat),
      (∀ i (hi : i < runs.size), ∃ path, paths[i]? = some path ∧
        store.read? path = some (content (runs[i].spill (files i)).2).toArray) →
      ∃ (m : Merge StoredCursor (PostingWriter W)) (unfinished finished : LexiconWriter X),
        mergeRuns runs.size (RunFiles.start store paths verifyRanges)
          (PostingWriter.start listsCapacity lists layout)
          (LexiconWriter.start termsCapacity terms layout) =
          (.ok ⟨(vocabulary runs.toList).length, total (runs.toList.map Run.postingCount)⟩, m,
            unfinished) ∧
        unfinished.finish = (.ok (vocabulary runs.toList).length, finished) ∧
        ∃ (reader : LexiconReader) (entries : List LexiconEntry),
          LexiconReader.start (.ofList (content finished.sink)) = .ok reader ∧
          reader.layout = layout ∧ reader.items = entries.map .ok ∧
          Term.Ascending (entries.map LexiconEntry.term) ∧
          (∀ term, term ∈ entries.map LexiconEntry.term ↔
            ∃ run ∈ runs.toList, term ∈ run.terms) ∧
          ∀ k (hk : k < entries.length), ∃ s pointer,
            mergedStatistics runs.toList entries[k].term = .ok s ∧
            entries[k].statistics =
              { s with termId := some (UInt32.ofNat k), pointer := some pointer } ∧
            readPostings (content m.sink.bits.sink).toArray pointer s.documentFrequency.toNat
              layout = .ok (mergedPostings runs.toList entries[k].term) := by
  refine ⟨fun i hi => ?_, fun store paths verify listsCapacity termsCapacity stored => ?_⟩
  · obtain ⟨sink', spilled, -⟩ := storable.spill_eq_ok (by simpa using hi)
      (Nat.lt_of_lt_of_le hi numbers) (freshFiles i)
    exact congrArg Prod.fst spilled
  have opens := storable.opens numbers freshFiles (by simpa using stored) verify
  obtain ⟨statistics, plan⟩ := storable.mergeable.exists_plan (Nat.le_of_lt storable.terms)
  have noLists : (PostingWriter.view W layout).Has (.start listsCapacity lists layout) [] :=
    PostingWriter.has_start listsCapacity freshLists
  have noTerms : (LexiconWriter.view X layout).Has (.start termsCapacity terms layout) [] :=
    LexiconWriter.holds_start termsCapacity freshTerms
  obtain ⟨m, unfinished, merged, closed, holds⟩ := mergeRuns_of_opens plan opens noLists noTerms
  obtain ⟨finished, finish, bytes⟩ := LexiconWriter.finish_eq_ok holds
  have short : (vocabulary runs.toList).length < UInt64.size :=
    Nat.lt_trans storable.terms (by decide)
  obtain ⟨reader, started, same, items⟩ := LexiconReader.items_eq
    (@storable_unionEntries _ _ W _ _ _ plan storable.places) (by rwa [length_unionEntries])
  rw [← bytes] at started
  rw [length_unionEntries] at finish
  refine ⟨m, unfinished, finished, merged, finish, reader, _, started, same, items, ?_, ?_,
    fun k hk => ?_⟩
  · rw [terms_unionEntries]
    exact ascending_vocabulary _
  · intro term
    rw [terms_unionEntries]
    exact mem_vocabulary
  · have here := hk
    rw [length_unionEntries] at here
    rw [getElem_unionEntries hk here]
    exact ⟨_, _, plan.combined _ (List.getElem_mem _), rfl,
      readPostings_unionLists plan closed storable.blocks here⟩

/-- A store with two files. -/
def twoFiles (first second : Array UInt8) : FileStore :=
  ⟨[(["a"], .file first), (["b"], .file second)]⟩

theorem read_twoFiles (first second : Array UInt8) :
    (twoFiles first second).read? "a" = some first ∧
      (twoFiles first second).read? "b" = some second :=
  ⟨FileStore.read?_of_name (by decide +kernel) rfl,
    FileStore.read?_of_name (by decide +kernel) rfl⟩

/-- The bytes that a run is stored as. -/
def storedRun (run : Run) : Array UInt8 :=
  (content (run.spill (#[] : Array UInt8)).2).toArray

/-- The files of the two runs. -/
def overlappingFiles : FileStore :=
  twoFiles (storedRun overlappingRuns[0]) (storedRun overlappingRuns[1])

/-- The files of two runs, of which the first was cut off in its second entry. -/
def damagedFiles : FileStore :=
  twoFiles (storedRun overlappingRuns[0]).pop (storedRun overlappingRuns[1])

theorem storable_overlappingRuns : Storable ⟨0, false⟩ overlappingRuns.toList :=
  ⟨by simpa using built_overlappingRuns, by decide, by decide, by decide, by decide, by decide,
    by decide⟩

theorem read_overlappingFiles (i : Nat) (hi : i < overlappingRuns.size) :
    ∃ path, #["a", "b"][i]? = some path ∧
      overlappingFiles.read? path = some (storedRun overlappingRuns[i]) := by
  match i, hi with
  | 0, _ => exact ⟨"a", rfl, (read_twoFiles _ _).1⟩
  | 1, _ => exact ⟨"b", rfl, (read_twoFiles _ _).2⟩

/-- The lists of the two runs are read back from the files of their merge. -/
theorem readback_of_mergeRuns_overlapping :
    ∃ (m : Merge StoredCursor (PostingWriter (Array UInt8))) (unfinished finished :
      LexiconWriter (Array UInt8)) (reader : LexiconReader) (entries : List LexiconEntry),
      mergeRuns 2 (RunFiles.start overlappingFiles #["a", "b"] true)
        (PostingWriter.start 1 #[] ⟨0, false⟩) (LexiconWriter.start 1 #[] ⟨0, false⟩) =
        (.ok ⟨2, 4⟩, m, unfinished) ∧
      unfinished.finish = (.ok 2, finished) ∧
      LexiconReader.start (.ofList finished.sink.toList) = .ok reader ∧
      reader.items = entries.map .ok ∧
      entries.map LexiconEntry.term = [[97], [97, 98]] := by
  obtain ⟨-, all⟩ := @readback_of_mergeRuns ⟨0, false⟩ (Array UInt8) (Array UInt8) (Array UInt8)
    _ _ _ _ _ _ overlappingRuns (fun _ => #[]) #[] #[] storable_overlappingRuns (by decide)
    (fun _ => fresh_array) fresh_array fresh_array
  obtain ⟨m, unfinished, finished, merged, finish, reader, entries, started, -, items, ascending,
    members, -⟩ := all overlappingFiles #["a", "b"] true 1 1 read_overlappingFiles
  have terms := ascending.ext (ascending_vocabulary overlappingRuns.toList)
    fun term => (members term).trans mem_vocabulary.symm
  have size : (vocabulary overlappingRuns.toList).length = 2 := by decide
  have count : total (overlappingRuns.toList.map Run.postingCount) = 4 := by decide
  rw [size, count] at merged
  rw [size] at finish
  exact ⟨m, unfinished, finished, reader, entries, merged, finish, started, items,
    terms.trans (by decide)⟩

/-- So many runs without entries. -/
def emptyRuns (layout : Layout) (count : Nat) : List Run :=
  (List.range count).map fun i => .empty i layout

/-- The contents of runs without entries can be stored, however many they are. -/
theorem storable_emptyRuns (layout : Layout) (count : Nat) :
    Storable layout (emptyRuns layout count) := by
  have each : ∀ run ∈ emptyRuns layout count, ∃ i, run = .empty i layout := by
    intro run listed
    obtain ⟨i, -, rfl⟩ := List.mem_map.mp listed
    exact ⟨i, rfl⟩
  have noTerms : vocabulary (emptyRuns layout count) = [] := by
    refine List.eq_nil_iff_forall_not_mem.mpr fun term found => ?_
    obtain ⟨run, listed, held⟩ := mem_vocabulary.mp found
    obtain ⟨i, rfl⟩ := each run listed
    exact List.not_mem_nil held
  have noEntries : ∀ run ∈ emptyRuns layout count, run.entries.toList = [] := by
    intro run listed
    obtain ⟨i, rfl⟩ := each run listed
    rfl
  refine ⟨fun i hi => ?_, ?_, ?_, ?_, ?_, ?_, ?_⟩
  · rw [show (emptyRuns layout count)[i] = .empty i layout by simp [emptyRuns]]
    exact .empty
  · exact List.pairwise_map.mpr (List.pairwise_of_forall fun _ _ _ none => by cases none)
  · rw [noTerms]
    decide
  · rw [noTerms]
    exact fun _ member => (List.not_mem_nil member).elim
  · intro run listed e member
    rw [noEntries run listed] at member
    cases member
  · intro run listed e member
    rw [noEntries run listed] at member
    cases member
  · rw [unionLists, noTerms]
    exact show 0 < 8 * UInt64.size by decide

/-- The number of a run is stored as a word of 32 bits. Of one run more than there are such words,
all without entries, the last one cannot be stored, though its contents can be. -/
theorem refuses_emptyRuns :
    let runs := emptyRuns ⟨0, false⟩ (UInt32.size + 1)
    Storable ⟨0, false⟩ runs ∧ ∃ run, runs[UInt32.size]? = some run ∧
      (run.spill (#[] : Array UInt8)).1 = .error (.argument .runIndexTooLarge) := by
  refine ⟨storable_emptyRuns _ _, .empty UInt32.size ⟨0, false⟩, ?_, rfl⟩
  rw [emptyRuns, List.getElem?_map, List.getElem?_range (Nat.lt_succ_self _)]
  rfl

end IndexMerge
