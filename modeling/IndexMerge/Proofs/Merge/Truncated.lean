import IndexMerge.Proofs.InvertedFile.Writer
import IndexMerge.Proofs.Merge.Endless
import IndexMerge.Proofs.Merge.Files
import IndexMerge.Proofs.Run.Through
import IndexMerge.Proofs.Schedule.Untrusted

/-!
# Merging truncated runs

A run that lost its last bytes in its file is never merged to an end, whatever the other files hold,
and reading it through gives a part of the run and fails (`Run.detects_truncation`). The number of
blocks of a posting is stored in a word. A posting with as many blocks as there are words is stored
as one with none, and nothing is missed where they are cut off (`Run.misses_allBlocks`).
-/

namespace IndexMerge

open FaithfulSink

/-- A cursor that falls short of its run has no ordinary end. -/
theorem StoredCursor.endless_fallsShort : Lease.Endless
    (fun lease => ∃ postings entries, FallsShort lease.cursor postings entries)
    (fun lease => ∃ entries, FallsShort lease.cursor [] entries) where
  hasNext := fun ⟨_, short⟩ => short.hasNext
  advance := by
    rintro lease cursor ⟨entries, short⟩ advanced
    obtain ⟨e, rest, -, -, -, onEntry⟩ := short.advance advanced
    exact ⟨e.postings, rest, onEntry⟩
  yields := by
    rintro lease after given ⟨postings, entries, short⟩ yields
    have open' : lease.openPostings.cursor.FallsShort postings entries := short.openPostings
    exact ⟨entries, (open'.of_yields yields).2⟩

namespace RunFiles

theorem store_openerBefore (files : RunFiles) (position : Nat) :
    (Schedule.openerBefore files position).store = files.store ∧
      (Schedule.openerBefore files position).paths = files.paths := by
  refine Schedule.openerBefore_keeps
    (P := fun after : RunFiles => after.store = files.store ∧ after.paths = files.paths)
    (fun position after kept => ?_) ⟨rfl, rfl⟩ position
  have ⟨store, paths, _⟩ := store_openRun position after
  exact ⟨store.trans kept.1, paths.trans kept.2⟩

/-- A file that cannot be read to the end of its run is not merged to an end. -/
theorem mergeRuns_of_endless {S D : Type} [PostingSink S] [Dictionary D] (exhausts : Exhausts S)
    {store : FileStore} {paths : Array String} {position count : Nat} (inside : position < count)
    {path : String} (listed : paths[position]? = some path)
    (short : ∀ cursor, openFile store path = .ok cursor → ∃ entries, cursor.FallsShort [] entries)
    (verifyRanges : Bool) (sink : S) (dictionary : D) :
    ∃ e, (mergeRuns count (start store paths verifyRanges) sink dictionary).1 = .error e := by
  refine IndexMerge.mergeRuns_of_endless StoredCursor.endless_fallsShort exhausts inside ?_ sink
    dictionary
  intro cursor opened
  have ⟨store, paths⟩ := store_openerBefore (start store paths verifyRanges) position
  obtain ⟨path', listed', opened⟩ := openFile_of_openRun opened
  rw [store] at opened
  rw [paths] at listed'
  obtain rfl := Option.some.inj (listed.symm.trans listed')
  exact short cursor opened

end RunFiles

namespace Run

variable {V : Type} [ByteSink V] [FaithfulSink V] {file file' : V} {run : Run} {index : Nat}
  {layout : Layout} {source : ByteSource}

/-- A run that was stored and then cut off is never taken for a whole run. Reading it through fails,
at once or after a part of the terms and postings of the run. A merge of files of which one holds no
more than such a part fails, whatever the other files hold, for both kinds of sinks and any
dictionary. -/
theorem detects_truncation (built : run.Built index layout)
    (blocks : ∀ e ∈ run.entries.toList, ∀ p ∈ e.postings, p.blocks.length < UInt32.size)
    (empty : content file = []) (spilled : run.spill file = (.ok (), file'))
    (part : source.bytes <+: content file') (proper : source.bytes ≠ content file') :
    (∀ name, (∃ e, StoredCursor.start name source = .error e) ∨
      ∃ cursor e items, StoredCursor.start name source = .ok cursor ∧
        RunCursor.readThrough cursor = (.error e, items) ∧ items <+: run.items) ∧
    ∀ (store : FileStore) (paths : Array String) (verifyRanges : Bool) (position count : Nat)
      (path : String), position < count → paths[position]? = some path →
      store.read? path = some source.bytes.toArray →
      ∀ {D : Type} [Dictionary D] (dictionary : D),
        (∀ lists : ListSink, ∃ e,
          (mergeRuns count (RunFiles.start store paths verifyRanges) lists dictionary).1 =
            .error e) ∧
        ∀ {W : Type} [ByteSink W] (lists : PostingWriter W), ∃ e,
          (mergeRuns count (RunFiles.start store paths verifyRanges) lists dictionary).1 =
            .error e := by
  have sound := built.sound
  obtain ⟨header, made, bytes⟩ := content_spill spilled
  rw [empty, List.nil_append] at bytes
  rw [bytes] at part proper
  obtain ⟨small, few, sameLayout⟩ := words_of_header made
  obtain ⟨_, made', describes⟩ := header_eq_ok sound (sound.index_eq ▸ small) few
  obtain rfl := Except.ok.inj (made.symm.trans made')
  have legible : ∀ e ∈ run.entries.toList, e.Legible header.layout := by
    intro e listed
    rw [sameLayout, sound.layout_eq]
    exact ⟨sound.entries e listed, blocks e listed⟩
  constructor
  · intro name
    cases started : StoredCursor.start name source with
    | error e => exact .inl ⟨e, rfl⟩
    | ok cursor =>
      have short := fallsShort_start describes legible part proper started
      obtain ⟨⟨e, failed⟩, given⟩ := short.readThrough
      exact .inr ⟨cursor, e, _, rfl, Prod.ext failed rfl, given⟩
  · intro store paths verifyRanges position count path inside listed read D _ dictionary
    have short : ∀ cursor, RunFiles.openFile store path = .ok cursor →
        ∃ entries, cursor.FallsShort [] entries := by
      intro cursor opened
      rw [RunFiles.openFile, FileStore.openSource_eq_ok read] at opened
      have opened : StoredCursor.start path (.ofList source.bytes) = .ok cursor := opened
      refine ⟨_, fallsShort_start describes legible ?_ ?_ opened⟩
      · exact part
      · exact proper
    refine ⟨fun lists => ?_, fun {W} _ lists => ?_⟩
    · exact RunFiles.mergeRuns_of_endless ListSink.exhausts inside listed short _ _ _
    · exact RunFiles.mergeRuns_of_endless PostingWriter.exhausts inside listed short _ _ _

/-- The file of the first of two runs lost its last byte: it cannot be read through, and the two
files cannot be merged. -/
theorem detects_truncation_damagedFiles :
    (∃ cursor e items, StoredCursor.start "a" (.ofList (storedRun overlappingRuns[0]).pop.toList) =
        .ok cursor ∧ RunCursor.readThrough cursor = (.error e, items) ∧
        items <+: overlappingRuns[0].items) ∧
      ∃ e, (mergeRuns 2 (RunFiles.start damagedFiles #["a", "b"] true) ListSink.empty
        (#[] : Array LexiconEntry)).1 = .error e := by
  have started : (StoredCursor.start "a"
      (.ofList (storedRun overlappingRuns[0]).pop.toList)).isOk = true := by decide +kernel
  obtain ⟨file', spilled, header, -, bytes⟩ :=
    storable_overlappingRuns.spill_eq_ok (by decide : 0 < overlappingRuns.toList.length) (by decide)
      fresh_array
  have spilled : overlappingRuns[0].spill (#[] : Array UInt8) = (.ok (), file') := spilled
  have same : storedRun overlappingRuns[0] = file' := by
    rw [storedRun, spilled]
    rfl
  have some : content file' ≠ [] := by
    rw [bytes]
    nofun
  let source : ByteSource := .ofList file'.pop.toList
  have cut : source.bytes = (content file').dropLast := Array.toList_pop
  have part : source.bytes <+: content file' := by
    rw [cut]
    exact List.dropLast_prefix _
  have proper : source.bytes ≠ content file' := by
    intro whole
    have length := congrArg List.length (cut.symm.trans whole)
    rw [List.length_dropLast] at length
    have := List.length_pos_iff.mpr some
    omega
  obtain ⟨reads, merges⟩ := detects_truncation (built_overlappingRuns 0 (by decide)) (by decide) rfl
    spilled part proper
  rw [same] at started ⊢
  refine ⟨(reads "a").resolve_left ?_, ?_⟩
  · rintro ⟨e, failed⟩
    rw [failed] at started
    cases started
  · refine (merges damagedFiles #["a", "b"] true 0 2 "a" (by decide) rfl ?_ _).1 _
    rw [damagedFiles, (read_twoFiles _ _).1, same]
    rfl

/-- A run with one posting, which has these blocks. -/
def blockRun (blocks : List UInt32) : Run :=
  let postings : List Posting := [⟨1, 1, [], blocks⟩]
  ⟨0, ⟨0, true⟩, #[⟨[97], .ofPostings ⟨0, true⟩ postings, postings⟩]⟩

/-- The header of a run with such a posting. -/
def blockHeader : RunHeader := ⟨0, ⟨0, true⟩, 1, 1, 1, 1⟩

/-- What is stored of the run before the blocks, if these are as many as there are words. -/
def beforeBlocks : List UInt8 :=
  blockHeader.encode ++ EntryHead.encode ⟨[97], ⟨1, 1, [], none, none⟩, 12 + 4 * UInt32.size⟩ ++
    bytes32 1 ++ bytes32 1 ++ bytes32 0

section Blocks

variable {blocks : List UInt32} (full : blocks.length = UInt32.size)

theorem sound_blockRun (ascending : isAscending blocks = true) :
    (blockRun blocks).Sound 0 ⟨0, true⟩ := by
  refine ⟨rfl, rfl, List.pairwise_singleton _ _, fun e listed => ?_⟩
  obtain rfl := List.mem_singleton.mp listed
  refine ⟨?_, List.cons_ne_nil _ _, fun p member => ?_, rfl, rfl⟩
  · show [97].length ≤ Term.maxLength
    decide
  · obtain rfl := List.mem_singleton.mp member
    exact Layout.check_eq_ok_iff.mpr ⟨by simp, rfl, nofun, ascending⟩

include full

theorem storedBytes_blockRun :
    storedBytes blockHeader (blockRun blocks) = beforeBlocks ++ blocks.flatMap bytes32 := by
  have none : UInt32.ofNat blocks.length = 0 := by
    rw [full]
    decide
  have posting : Posting.encode ⟨0, true⟩ ⟨1, 1, [], blocks⟩ =
      bytes32 1 ++ bytes32 1 ++ bytes32 0 ++ blocks.flatMap bytes32 := by
    rw [Posting.encode, none]
    simp
  have length : (Posting.encode ⟨0, true⟩ ⟨1, 1, [], blocks⟩).length = 12 + 4 * UInt32.size := by
    rw [posting, List.length_append, length_flatMap_of_length length_bytes32, full]
    rfl
  have stored : storedBytes blockHeader (blockRun blocks) = blockHeader.encode ++
      (EntryHead.encode ⟨[97], ⟨1, 1, [], .none, .none⟩,
        ([⟨1, 1, [], blocks⟩].flatMap (Posting.encode ⟨0, true⟩)).length⟩ ++
          [⟨1, 1, [], blocks⟩].flatMap (Posting.encode ⟨0, true⟩) ++ []) := rfl
  rw [stored, List.flatMap_singleton, length, posting, beforeBlocks]
  simp only [List.append_assoc, List.append_nil]

theorem spill_blockRun : ∃ file' : Array UInt8, (blockRun blocks).spill #[] = (.ok (), file') ∧
    file'.toList = beforeBlocks ++ blocks.flatMap bytes32 := by
  have made : (blockRun blocks).header = .ok blockHeader := rfl
  obtain ⟨file', spilled, bytes⟩ := spill_eq_ok fresh_array made
  rw [storedBytes_blockRun full] at bytes
  exact ⟨file', spilled, bytes⟩

end Blocks

/-- All numbers of blocks there are. -/
def allBlocks : List UInt32 := (List.range UInt32.size).map UInt32.ofNat

theorem length_allBlocks : allBlocks.length = UInt32.size := by
  rw [allBlocks, List.length_map, List.length_range]

theorem isAscending_allBlocks : isAscending allBlocks = true := by
  refine isAscending_iff_pairwise.mpr (List.pairwise_map.mpr ?_)
  refine List.pairwise_lt_range.imp_of_mem fun {a b} first second less => ?_
  rw [List.mem_range] at first second
  rwa [UInt32.lt_iff_toNat_lt, UInt32.toNat_ofNat_of_lt' first, UInt32.toNat_ofNat_of_lt' second]

/-- A cursor over what is stored before so many blocks goes over a posting without blocks. -/
theorem walks_beforeBlocks : ∃ cursor, StoredCursor.start "a" (.ofList beforeBlocks) = .ok cursor ∧
    cursor.header = blockHeader ∧
    (⟨0, cursor⟩ : Lease StoredCursor).Walks 0 (blockRun []).entries.toList :=
  ⟨_, rfl, rfl, rfl, rfl, _, rfl, rfl, rfl, rfl, _, ⟨_, rfl, rfl⟩, rfl, rfl, rfl⟩

/-- A file with just these bytes is opened as a run whose posting has no blocks. -/
theorem opens_beforeBlocks {store : FileStore}
    (read : store.read? "a" = some beforeBlocks.toArray) :
    Schedule.Opens (RunFiles.start store #["a"] true) 0 [blockRun []] := by
  obtain ⟨cursor, started, header, walks⟩ := walks_beforeBlocks
  have opened : RunFiles.openFile store "a" = .ok cursor := by
    rw [RunFiles.openFile, FileStore.openSource_eq_ok read]
    exact started
  have accepted : ∃ files', RunFiles.accept 0 "a" cursor.header
      (RunFiles.start store #["a"] true) = (.ok (), files') := by
    rw [header]
    exact ⟨_, rfl⟩
  obtain ⟨files', accepted⟩ := accepted
  have here : RunOpener.openRun 0 (RunFiles.start store #["a"] true) =
      (.ok cursor, [.openingRun 0 "a"], files') := by
    show RunFiles.openRun 0 (RunFiles.start store #["a"] true) = _
    have listed : (RunFiles.start store #["a"] true).paths[0]? = some "a" := rfl
    have same : (RunFiles.start store #["a"] true).store = store := rfl
    rw [RunFiles.openRun, listed, same]
    dsimp only
    rw [opened]
    dsimp only
    rw [accepted]
  exact ⟨rfl, cursor, _, files', here, walks, trivial⟩

/-- Where all blocks of a posting are cut off, a run with all blocks there are is read through and
merged without a failure, as a run without blocks. -/
theorem misses_allBlocks : ∃ file' : Array UInt8,
    (blockRun allBlocks).Built 0 ⟨0, true⟩ ∧
    (blockRun allBlocks).spill #[] = (.ok (), file') ∧
    beforeBlocks <+: file'.toList ∧ beforeBlocks ≠ file'.toList ∧
    (∃ cursor, StoredCursor.start "a" (.ofList beforeBlocks) = .ok cursor ∧
      RunCursor.readThrough cursor = (.ok (), (blockRun []).items)) ∧
    ∃ (m : Merge StoredCursor ListSink) (dictionary : Array LexiconEntry),
      mergeRuns 1 (RunFiles.start (twoFiles beforeBlocks.toArray #[]) #["a"] true) ListSink.empty
        (#[] : Array LexiconEntry) = (.ok ⟨1, 1⟩, m, dictionary) := by
  obtain ⟨file', spilled, bytes⟩ := spill_blockRun length_allBlocks
  have some : allBlocks.flatMap bytes32 ≠ [] := by
    rw [← List.length_pos_iff, length_flatMap_of_length length_bytes32, length_allBlocks]
    decide
  obtain ⟨cursor, started, -, walks⟩ := walks_beforeBlocks
  refine ⟨file', (sound_blockRun isAscending_allBlocks).built, spilled, ?_, ?_, ?_, ?_⟩
  · rw [bytes]
    exact List.prefix_append _ _
  · rw [bytes]
    exact fun whole => some (List.append_right_eq_self.mp whole.symm)
  · exact ⟨cursor, started, Lease.readThrough_of_walks walks⟩
  · have built : ∀ i (hi : i < [blockRun []].length), [blockRun []][i].Built i ⟨0, true⟩ := by
      intro i hi
      obtain rfl := Nat.lt_one_iff.mp hi
      exact (sound_blockRun rfl).built
    have mergeable := mergeable_of_built built (by decide) (by decide)
    obtain ⟨statistics, plan⟩ := mergeable.exists_plan (by decide)
    have stored : (ListSink.view ⟨0, true⟩).Has ListSink.empty [] := ⟨rfl, rfl⟩
    have entered : (arrayView ⟨0, true⟩).Has (#[] : Array LexiconEntry) [] := rfl
    obtain ⟨m, dictionary, merged, -⟩ := mergeRuns_of_opens plan
      (opens_beforeBlocks (read_twoFiles beforeBlocks.toArray #[]).1) stored entered
    exact ⟨m, dictionary, merged⟩

end Run

end IndexMerge
