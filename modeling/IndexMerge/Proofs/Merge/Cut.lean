import IndexMerge.Proofs.Merge.Memory
import IndexMerge.Proofs.Run.Cut

/-!
# Merging the pieces of a run

It does not matter for a merge how the documents were cut into runs: from the pieces of a run the
entries and the lists of the run are put together again (`mergeRuns_pieces`).
-/

namespace IndexMerge

variable {layout : Layout} {run : Run} {index : Nat} {cuts : List UInt32}

namespace Run

/-- The pieces of a run can be merged if its postings can be counted. -/
theorem mergeable_pieces (built : run.Built index layout) (cut : cuts.Pairwise (· < ·))
    (short : ∀ e ∈ run.entries.toList, e.postings.length < UInt32.size) :
    Mergeable layout (run.pieces cuts).toList := by
  have held : ∀ term ∈ vocabulary (run.pieces cuts).toList,
      ∃ e ∈ run.entries.toList, mergedPostings (run.pieces cuts).toList term = e.postings := by
    intro term here
    rw [vocabulary_pieces built.sound cut] at here
    obtain ⟨e, listed, rfl⟩ := List.mem_map.mp here
    exact ⟨e, listed, mergedPostings_pieces built.sound cut listed⟩
  refine mergeable_of_built (fun i hi => ?_) (fun term here => ?_) fun term here => ?_
  · simp only [toList_pieces, List.getElem_map, List.getElem_range]
    exact built_piece built cuts i
  · obtain ⟨e, listed, same⟩ := held term here
    rw [same]
    exact (built.sound.entries e listed).ascending
  · obtain ⟨e, listed, same⟩ := held term here
    rw [same]
    exact short e listed

/-- The lists of the pieces are those of the run. -/
theorem unionLists_pieces (built : run.Built index layout) (cut : cuts.Pairwise (· < ·)) :
    unionLists (run.pieces cuts).toList = run.entries.toList.map (·.postings) := by
  rw [unionLists, vocabulary_pieces built.sound cut, terms, List.map_map]
  exact List.map_congr_left fun e listed => mergedPostings_pieces built.sound cut listed

/-- The entries of the pieces are those of the run. -/
theorem unionEntries_pieces (built : run.Built index layout) (cut : cuts.Pairwise (· < ·)) :
    unionEntries (ListSink.view layout).place
        (fun term => .ofPostings layout (mergedPostings (run.pieces cuts).toList term))
        (run.pieces cuts).toList =
      run.entries.toList.mapIdx fun k e => ⟨e.term, { e.statistics with
        termId := some (UInt32.ofNat k), pointer := some ⟨k, 0⟩ }⟩ := by
  have terms := vocabulary_pieces built.sound cut
  refine List.ext_getElem (by simp [length_unionEntries, terms, Run.terms]) fun k hk here => ?_
  have inside := hk
  rw [length_unionEntries] at inside
  rw [List.length_mapIdx] at here
  have listed : run.entries.toList[k] ∈ run.entries.toList := List.getElem_mem here
  have term : (vocabulary (run.pieces cuts).toList)[k] = run.entries.toList[k].term := by
    simp [terms, Run.terms]
  rw [getElem_unionEntries hk inside, List.getElem_mapIdx, unionStatistics, term,
    place_unionLists (Nat.le_of_lt inside), mergedPostings_pieces built.sound cut listed,
    ← (built.sound.entries _ listed).statistics_eq]

/-- The pieces have as many postings as the run. -/
theorem total_postingCount_pieces (built : run.Built index layout) (cut : cuts.Pairwise (· < ·)) :
    total ((run.pieces cuts).toList.map postingCount) = run.postingCount := by
  have ascending : ∀ piece ∈ (run.pieces cuts).toList, Term.Ascending piece.terms := by
    intro piece listed
    rw [toList_pieces] at listed
    obtain ⟨i, -, rfl⟩ := List.mem_map.mp listed
    exact (sound_piece built.sound cuts i).ascending
  have lists := congrArg (List.map List.length) (unionLists_pieces built cut)
  rw [unionLists, List.map_map, List.map_map] at lists
  rw [← total_mergedPostings ascending, postingCount_eq]
  exact congrArg total lists

end Run

/-- Merging the pieces of a built run gives the entries of the run again, numbered from zero on,
with the statistics that they have in the run, and the lists of the run in their places. Every piece
could have been built itself. -/
theorem mergeRuns_pieces (built : run.Built index layout) (cut : cuts.Pairwise (· < ·))
    (few : run.entries.size < UInt32.size)
    (short : ∀ e ∈ run.entries.toList, e.postings.length < UInt32.size) :
    (∀ i (hi : i < (run.pieces cuts).size), (run.pieces cuts)[i].Built i layout) ∧
    ∃ (m : Merge MemoryCursor ListSink) (dictionary : Array LexiconEntry),
      mergeRuns (cuts.length + 1) (run.pieces cuts) ListSink.empty (#[] : Array LexiconEntry) =
        (.ok ⟨run.entries.size, run.postingCount⟩, m, dictionary) ∧
      dictionary.toList = run.entries.toList.mapIdx (fun k e => ⟨e.term, { e.statistics with
        termId := some (UInt32.ofNat k), pointer := some ⟨k, 0⟩ }⟩) ∧
      m.sink.lists.toList = run.entries.toList.map (·.postings) := by
  have pieces : ∀ i (hi : i < (run.pieces cuts).size), (run.pieces cuts)[i].Built i layout := by
    intro i hi
    rw [← Array.getElem_toList]
    simp only [Run.toList_pieces, List.getElem_map, List.getElem_range]
    exact Run.built_piece built cuts i
  refine ⟨pieces, ?_⟩
  have mergeable := Run.mergeable_pieces built cut short
  have vocabulary_eq := Run.vocabulary_pieces built.sound cut
  have size : (vocabulary (run.pieces cuts).toList).length = run.entries.size := by
    rw [vocabulary_eq, Run.terms, List.length_map, Array.length_toList]
  have plan : UnionPlan layout (run.pieces cuts).toList _ :=
    ⟨mergeable.plan (by omega), mergeable.documents⟩
  have opens := opens_memory (fun i hi => (pieces i hi).sound.index_eq) 0
  rw [List.drop_zero] at opens
  have stored : (ListSink.view layout).Has ListSink.empty [] := ⟨rfl, rfl⟩
  have entered : (arrayView layout).Has (#[] : Array LexiconEntry) [] := rfl
  obtain ⟨m, dictionary, merged, lists, entries⟩ := mergeRuns_of_opens plan opens stored entered
  have lists : m.sink.lists.toList = unionLists (run.pieces cuts).toList := lists
  have entries : dictionary.toList = unionEntries (ListSink.view layout).place _
    (run.pieces cuts).toList := entries
  have count : (run.pieces cuts).toList.length = cuts.length + 1 := by
    rw [Run.toList_pieces, List.length_map, List.length_range]
  rw [size, Run.total_postingCount_pieces built cut, count] at merged
  refine ⟨m, dictionary, merged, ?_, ?_⟩
  · exact entries.trans (Run.unionEntries_pieces built cut)
  · rw [lists, Run.unionLists_pieces built cut]

/-- A run with a term in documents on both sides of some cuts, and a term in one document. -/
def spreadRun : Run :=
  let layout : Layout := ⟨1, true⟩
  let entry (term : Term) (postings : List Posting) : RunEntry :=
    ⟨term, .ofPostings layout postings, postings⟩
  ⟨7, layout, #[entry [97] [⟨1, 1, [1], []⟩, ⟨5, 2, [0], [3, 4]⟩, ⟨9, 1, [1], []⟩],
    entry [97, 98] [⟨2, 4, [2], [8]⟩]]⟩

theorem built_spreadRun : spreadRun.Built 7 ⟨1, true⟩ := by
  have given : Run.ofTerms 7 ⟨1, true⟩ [([97], [⟨1, 1, [1], []⟩, ⟨5, 2, [0], [3, 4]⟩,
      ⟨9, 1, [1], []⟩]), ([97, 98], [⟨2, 4, [2], [8]⟩])] = .ok spreadRun := rfl
  exact Run.built_of_ofTerms given

/-- The run is merged from its pieces for the documents before 3, those up to 8 and those from 9
on. -/
theorem mergeRuns_pieces_spreadRun :
    ∃ (m : Merge MemoryCursor ListSink) (dictionary : Array LexiconEntry),
      mergeRuns 3 (spreadRun.pieces [3, 9]) ListSink.empty (#[] : Array LexiconEntry) =
        (.ok ⟨2, 4⟩, m, dictionary) ∧
      dictionary.toList = [⟨[97], ⟨3, 4, [2], some 0, some ⟨0, 0⟩⟩⟩,
        ⟨[97, 98], ⟨1, 4, [2], some 1, some ⟨1, 0⟩⟩⟩] ∧
      m.sink.lists.toList.map (·.map Posting.docId) = [[1, 5, 9], [2]] := by
  obtain ⟨-, m, dictionary, merged, entries, lists⟩ :=
    mergeRuns_pieces built_spreadRun (show [3, 9].Pairwise (· < ·) by decide) (by decide)
      (by decide)
  exact ⟨m, dictionary, merged, entries.trans (by decide), by rw [lists]; decide⟩

end IndexMerge
