import IndexMerge.Proofs.Merge.Union
import IndexMerge.Run.Opener

/-!
# Merging runs in memory

Runs that were built over different documents are merged in memory to their union
(`union_of_mergeRuns`): every term once and in order, each with the statistics and the postings of
all runs that hold it.
-/

namespace IndexMerge

variable {layout : Layout}

/-- Runs that were built at the places of their numbers can be taken together if the postings of
each term can be counted. -/
theorem combinable_of_built {runs : List Run}
    (built : ∀ i (hi : i < runs.length), runs[i].Built i layout)
    (short : ∀ term ∈ vocabulary runs, (mergedPostings runs term).length < UInt32.size) :
    Combinable layout runs := by
  have sound : ∀ run ∈ runs, ∃ i, run.Sound i layout := by
    intro run member
    obtain ⟨i, hi, rfl⟩ := List.mem_iff_getElem.mp member
    exact ⟨i, (built i hi).sound⟩
  refine ⟨?_, ?_, ?_, ?_⟩
  · intro run member
    obtain ⟨i, sound⟩ := sound run member
    exact sound.ascending
  · intro run member
    obtain ⟨i, sound⟩ := sound run member
    exact sound.entries
  · refine List.pairwise_iff_getElem.mpr fun i j hi hj less => ?_
    rwa [(built i hi).sound.index_eq, (built j hj).sound.index_eq]
  · intro term
    by_cases here : term ∈ vocabulary runs
    · exact short term here
    · rw [mergedPostings_eq_nil here]
      decide

/-- They can be merged if the documents of each term ascend over them as well. -/
theorem mergeable_of_built {runs : List Run}
    (built : ∀ i (hi : i < runs.length), runs[i].Built i layout)
    (documents : ∀ term ∈ vocabulary runs,
      isAscending ((mergedPostings runs term).map Posting.docId) = true)
    (short : ∀ term ∈ vocabulary runs, (mergedPostings runs term).length < UInt32.size) :
    Mergeable layout runs := by
  refine ⟨combinable_of_built built short, fun term => ?_⟩
  by_cases here : term ∈ vocabulary runs
  · exact documents term here
  · rw [mergedPostings_eq_nil here]
    rfl

/-- Runs in memory are opened by cursors that go over them. -/
theorem opens_memory {runs : Array Run} (built : ∀ i (hi : i < runs.size), runs[i].index = i)
    (position : Nat) : Schedule.Opens runs position (runs.toList.drop position) := by
  generalize rest : runs.toList.drop position = more
  induction more generalizing position with
  | nil => exact trivial
  | cons run more ih =>
    have inside : position < runs.size := by
      refine Nat.lt_of_not_le fun outside => ?_
      rw [List.drop_eq_nil_of_le (by simpa using outside)] at rest
      cases rest
    rw [List.drop_eq_getElem_cons (by simpa using inside)] at rest
    obtain ⟨here, rest⟩ := List.cons.inj rest
    rw [Array.getElem_toList] at here
    have place : run.index = position := by rw [← here, built position inside]
    refine ⟨place, .start run, [], runs, ?_, ?_, ih (position + 1) rest⟩
    · show openInMemory position runs = _
      rw [openInMemory, Array.getElem?_eq_getElem inside, here]
    · exact MemoryCursor.walks_memory position (.start run) rfl

/-- The list with a number is stored at its number in a sink in memory. -/
theorem place_unionLists {runs : List Run} {k : Nat} (le : k ≤ (vocabulary runs).length) :
    (ListSink.view layout).place ((unionLists runs).take k) = ⟨k, 0⟩ := by
  show BitPosition.mk ((unionLists runs).take k).length 0 = _
  rw [List.length_take_of_le (by rwa [length_unionLists])]

/-- At the place of the list with a number a sink in memory has the list of the term with this
number. -/
theorem get?_place_unionLists {runs : List Run} {sink : ListSink}
    (lists : sink.lists.toList = unionLists runs) {k : Nat} (hk : k < (vocabulary runs).length) :
    sink.get? ((ListSink.view layout).place ((unionLists runs).take k)) =
      some (mergedPostings runs (vocabulary runs)[k]) := by
  have inside : k < (unionLists runs).length := by rwa [length_unionLists]
  rw [place_unionLists (Nat.le_of_lt hk), ListSink.get?, if_pos rfl, ← Array.getElem?_toList, lists,
    List.getElem?_eq_getElem inside, getElem_unionLists inside hk]

/-- Merging built runs whose documents ascend over the runs gives the union of the runs. The terms
are those of the runs in ascending order, the entry of each has the statistics of all runs that
hold it, and at its place all their postings are stored. Every step writes the next term and names
the runs that hold it, and the merge is done behind the last one. -/
theorem union_of_mergeRuns {runs : Array Run}
    (built : ∀ i (hi : i < runs.size), runs[i].Built i layout)
    (documents : ∀ term ∈ vocabulary runs.toList,
      isAscending ((mergedPostings runs.toList term).map Posting.docId) = true)
    (short : ∀ term ∈ vocabulary runs.toList,
      (mergedPostings runs.toList term).length < UInt32.size)
    (few : (vocabulary runs.toList).length < UInt32.size) :
    ∃ (m : Merge MemoryCursor ListSink) (dictionary : Array LexiconEntry),
      mergeRuns runs.size runs ListSink.empty (#[] : Array LexiconEntry) =
        (.ok ⟨dictionary.size, total (runs.toList.map Run.postingCount)⟩, m, dictionary) ∧
      Term.Ascending (dictionary.toList.map LexiconEntry.term) ∧
      (∀ term, term ∈ dictionary.toList.map LexiconEntry.term ↔
        ∃ run ∈ runs.toList, term ∈ run.terms) ∧
      (∀ k (hk : k < dictionary.size), ∃ s pointer,
        mergedStatistics runs.toList dictionary[k].term = .ok s ∧
        dictionary[k].statistics =
          { s with termId := some (UInt32.ofNat k), pointer := some pointer } ∧
        m.sink.get? pointer = some (mergedPostings runs.toList dictionary[k].term)) ∧
      ∀ interval, ∃ opener started,
        Merge.start runs.size runs ListSink.empty interval = (.ok (), opener, started) ∧
        ∀ k ≤ dictionary.size,
          let (m, written) := Merge.perform (List.replicate k .step) started
            (#[] : Array LexiconEntry)
          m.isDone = decide (k = dictionary.size) ∧
          ∀ hk : k < dictionary.size, (m.step written).1 = .ok ⟨dictionary[k].term,
            UInt32.ofNat k, (entriesOf runs.toList dictionary[k].term).map (·.1),
            dictionary[k].statistics⟩ := by
  have listed : ∀ i (hi : i < runs.toList.length), runs.toList[i].Built i layout := by
    simpa using built
  have mergeable := mergeable_of_built listed documents short
  obtain ⟨statistics, plan⟩ := mergeable.exists_plan (Nat.le_of_lt few)
  have opens := opens_memory (fun i hi => (built i hi).sound.index_eq) 0
  rw [List.drop_zero] at opens
  have stored : (ListSink.view layout).Has ListSink.empty [] := ⟨rfl, rfl⟩
  have entered : (arrayView layout).Has (#[] : Array LexiconEntry) [] := rfl
  obtain ⟨m, dictionary, merged, lists, entries⟩ := mergeRuns_of_opens plan opens stored entered
  have lists : m.sink.lists.toList = unionLists runs.toList := lists
  have entries : dictionary.toList =
      unionEntries (ListSink.view layout).place statistics runs.toList := entries
  have terms : dictionary.toList.map LexiconEntry.term = vocabulary runs.toList := by
    rw [entries, terms_unionEntries]
  have size : dictionary.size = (vocabulary runs.toList).length := by
    rw [← terms, List.length_map, Array.length_toList]
  have entry : ∀ k (hk : k < dictionary.size) (here : k < (vocabulary runs.toList).length),
      dictionary[k] = ⟨(vocabulary runs.toList)[k], unionStatistics (ListSink.view layout).place
        statistics runs.toList k (vocabulary runs.toList)[k]⟩ := by
    intro k hk here
    rw [← Array.getElem_toList]
    simp only [entries]
    exact getElem_unionEntries _ here
  refine ⟨m, dictionary, by rw [size]; exact merged, ?_, ?_, fun k hk => ?_, fun interval => ?_⟩
  · rw [terms]
    exact ascending_vocabulary _
  · intro term
    rw [terms]
    exact mem_vocabulary
  · rw [entry k hk (size ▸ hk)]
    exact ⟨_, _, plan.combined _ (List.getElem_mem _), rfl, get?_place_unionLists lists _⟩
  · obtain ⟨opener, started, begun, zero⟩ :=
      Merge.reached_start plan opens stored entered interval
    refine ⟨opener, started, begun, fun k le => ?_⟩
    obtain ⟨isDone, steps⟩ := Merge.step_perform plan zero (size ▸ le)
    refine ⟨by rw [isDone, size], fun hk => ?_⟩
    rw [steps (size ▸ hk), entry k hk (size ▸ hk)]
    rfl

/-- Two runs that both hold a term. One of them holds a longer term as well that begins with it. -/
def overlappingRuns : Array Run :=
  let layout : Layout := ⟨0, false⟩
  let entry (term : Term) (postings : List Posting) : RunEntry :=
    ⟨term, .ofPostings layout postings, postings⟩
  #[⟨0, layout, #[entry [97] [⟨1, 1, [], []⟩, ⟨5, 2, [], []⟩], entry [97, 98] [⟨2, 1, [], []⟩]]⟩,
    ⟨1, layout, #[entry [97] [⟨9, 3, [], []⟩]]⟩]

theorem built_overlappingRuns (i : Nat) (hi : i < overlappingRuns.size) :
    overlappingRuns[i].Built i ⟨0, false⟩ := by
  match i, hi with
  | 0, _ =>
    have given : Run.ofTerms 0 ⟨0, false⟩ [([97], [⟨1, 1, [], []⟩, ⟨5, 2, [], []⟩]),
        ([97, 98], [⟨2, 1, [], []⟩])] = .ok overlappingRuns[0] := rfl
    exact Run.built_of_ofTerms given
  | 1, _ =>
    have given : Run.ofTerms 1 ⟨0, false⟩ [([97], [⟨9, 3, [], []⟩])] = .ok overlappingRuns[1] :=
      rfl
    exact Run.built_of_ofTerms given

/-- The merge of the two runs has two terms and four postings. -/
theorem union_of_mergeRuns_overlapping :
    ∃ (m : Merge MemoryCursor ListSink) (dictionary : Array LexiconEntry),
      mergeRuns 2 overlappingRuns ListSink.empty (#[] : Array LexiconEntry) =
        (.ok ⟨2, 4⟩, m, dictionary) ∧
      dictionary.toList.map LexiconEntry.term = [[97], [97, 98]] := by
  obtain ⟨m, dictionary, merged, ascending, members, -⟩ :=
    union_of_mergeRuns built_overlappingRuns (by decide) (by decide) (by decide)
  have terms := ascending.ext (ascending_vocabulary overlappingRuns.toList)
    fun term => (members term).trans mem_vocabulary.symm
  have size : dictionary.size = 2 := by
    rw [← Array.length_toList, ← List.length_map LexiconEntry.term, terms]
    decide
  rw [size] at merged
  exact ⟨m, dictionary, merged, terms.trans (by decide)⟩

end IndexMerge
