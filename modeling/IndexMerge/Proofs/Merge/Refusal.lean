import IndexMerge.Proofs.Merge.Custody
import IndexMerge.Proofs.Merge.Memory

/-!
# Merges that are refused

The documents of a term need not ascend over the runs that are merged. The merge then goes up to the
least such term (`mergeRuns_of_descent`): what was written before stays, nothing of the term does,
and all cursors are closed.
-/

namespace IndexMerge

open PostingSource

variable {F C S D : Type} [RunCursor C] {layout : Layout} {runs : List Run} {k : Nat}

namespace Merge

variable [PostingSink S] [Dictionary D] {sinks : SinkView S layout}
  {dictionaries : DictionaryView D layout} {statistics : Term → TermStatistics}

/-- A list that the sink refuses without keeping anything of it fails the step of its term, and
nothing is written. -/
theorem step_of_refused {m : Merge C S} {d : D} {e : Error}
    (plan : EntryPlan layout runs statistics)
    (h : Reached sinks dictionaries statistics runs k m d) (hk : k < (vocabulary runs).length)
    (refused : ∀ {σ : Type} [PostingSource σ] {source source' : σ},
      Yields source (mergedPostings runs (vocabulary runs)[k]) source' →
      ∃ after, PostingSink.write source m.sink = (.error e, after, m.sink)) :
    ∃ m', m.step d = (.error e, m', d) ∧ m'.sink = m.sink ∧ m'.progress = m.progress := by
  obtain ⟨left, covers, isLeft⟩ := h.left
  have first : vocabulary left = (vocabulary runs)[k] :: (vocabulary runs).drop (k + 1) := by
    rw [isLeft.vocabulary_eq, List.drop_eq_getElem_cons hk]
  obtain ⟨lease, rest, schedule, popped, onTerm, stand, -⟩ := Schedule.covers_popGroup covers
    isLeft.combinable.ascending isLeft.combinable.distinct first
  have here : (vocabulary runs)[k] ∈ vocabulary left := by
    rw [first]
    exact List.mem_cons_self ..
  have same := isLeft.entriesOf_eq _ here
  have taken : combineAll lease rest = .ok (statistics (vocabulary runs)[k]) := by
    rw [combineAll_of_standsFor isLeft.combinable stand onTerm, mergedStatistics, same]
    exact plan.combined _ (List.getElem_mem hk)
  obtain ⟨row, yields, -⟩ := yields_of_standsFor isLeft.combinable stand onTerm
  rw [mergedPostings, same, ← mergedPostings] at yields
  obtain ⟨after, written⟩ := refused (yields.counted 0)
  have failed : writeGroup lease rest { m with schedule } d =
      fail e after.inner.sources { m with schedule } d := by
    unfold writeGroup store
    dsimp only
    rw [checkOrder_of_standsFor isLeft.combinable stand]
    dsimp only
    rw [taken]
    dsimp only
    rw [written]
  unfold step
  rw [if_neg (by simp [h.sound]), popped]
  dsimp only
  rw [failed]
  dsimp only [fail]
  split
  · exact ⟨_, rfl, rfl, rfl⟩
  · exact ⟨_, rfl, rfl, rfl⟩

/-- What is written in memory after some steps: the first terms of the union with their numbers,
their statistics and their lists, and the counts of these. -/
theorem Reached.written {m : Merge C ListSink} {dictionary : Array LexiconEntry}
    (h : Reached (ListSink.view layout) (arrayView layout) statistics runs k m dictionary)
    (plan : EntryPlan layout runs statistics) (le : k ≤ (vocabulary runs).length) :
    dictionary.toList.map LexiconEntry.term = (vocabulary runs).take k ∧
      (∀ j (hj : j < dictionary.size), ∃ s, mergedStatistics runs dictionary[j].term = .ok s ∧
        dictionary[j].statistics =
          { s with termId := some (UInt32.ofNat j), pointer := some ⟨j, 0⟩ }) ∧
      m.sink.lists.toList = dictionary.toList.map (fun e => mergedPostings runs e.term) ∧
      m.progress = ⟨dictionary.size, total (m.sink.lists.toList.map List.length)⟩ := by
  have entries : dictionary.toList =
      (unionEntries (ListSink.view layout).place statistics runs).take k := h.entries
  have lists : m.sink.lists.toList = (unionLists runs).take k := h.lists.1
  have terms : dictionary.toList.map LexiconEntry.term = (vocabulary runs).take k := by
    rw [entries, List.map_take, terms_unionEntries]
  have size : dictionary.size = k := by
    rw [← Array.length_toList, ← List.length_map LexiconEntry.term, terms,
      List.length_take_of_le le]
  refine ⟨terms, fun j hj => ?_, ?_, ?_⟩
  · have here : j < (vocabulary runs).length := by omega
    have inside : j < (unionEntries (ListSink.view layout).place statistics runs).length := by
      rwa [length_unionEntries]
    have entry : dictionary[j] = ⟨(vocabulary runs)[j],
        unionStatistics (ListSink.view layout).place statistics runs j (vocabulary runs)[j]⟩ := by
      rw [← Array.getElem_toList]
      simp only [entries]
      exact (List.getElem_take ..).trans (getElem_unionEntries inside here)
    rw [entry]
    refine ⟨_, plan.combined _ (List.getElem_mem _), ?_⟩
    rw [unionStatistics, place_unionLists (Nat.le_of_lt here)]
  · have postings := congrArg (List.map (mergedPostings runs)) terms
    rw [List.map_map] at postings
    rw [lists, unionLists, ← List.map_take]
    exact postings.symm
  · rw [lists, size, ← h.postings_eq]
    exact congrArg (Progress.mk · m.progress.postings) h.terms_eq

end Merge

/-- Opening runs in memory changes nothing. -/
theorem openerBefore_memory (runs : Array Run) (position : Nat) :
    Schedule.openerBefore runs position = runs := by
  refine Schedule.openerBefore_keeps (P := (· = runs)) ?_ rfl position
  rintro position _ rfl
  show (openInMemory position _).2.2 = _
  unfold openInMemory
  split <;> rfl

/-- Each run in memory is opened by a cursor before its first entry. -/
theorem givenBefore_memory (runs : Array Run) : Schedule.givenBefore runs runs.size =
    runs.toList.mapIdx fun i run => (i, MemoryCursor.start run) := by
  have each : ∀ i ∈ List.range runs.size,
      Schedule.givenBy i (Schedule.answer (C := MemoryCursor) runs i) =
        some (i, MemoryCursor.start (runs[i]?.getD default)) := by
    intro i listed
    have hi := List.mem_range.mp listed
    have opened : Schedule.answer (C := MemoryCursor) runs i = (openInMemory i runs).1 := by
      rw [Schedule.answer, openerBefore_memory]
      rfl
    rw [opened, openInMemory, Array.getElem?_eq_getElem hi]
    rfl
  rw [Schedule.givenBefore, List.filterMap_eq_map_iff_forall_eq_some.mpr each]
  apply List.ext_getElem
  · simp
  · intro i first second
    have hi : i < runs.size := by simpa using first
    simp [Array.getElem?_eq_getElem hi]

/-- The terms before a term of runs are those that precede it. -/
theorem take_vocabulary (hk : k < (vocabulary runs).length) :
    (vocabulary runs).take k = (vocabulary runs).filter (·.precedes (vocabulary runs)[k]) := by
  have sorted := ascending_vocabulary runs
  have split := List.take_append_drop k (vocabulary runs)
  rw [List.drop_eq_getElem_cons hk] at split
  generalize (vocabulary runs)[k] = term at *
  rw [← split] at sorted
  have ⟨_, behind, before⟩ := List.pairwise_append.mp sorted
  have front : ((vocabulary runs).take k).filter (·.precedes term) = (vocabulary runs).take k :=
    List.filter_eq_self.mpr fun u member => before u member term (List.mem_cons_self ..)
  have none : ((vocabulary runs).drop (k + 1)).filter (·.precedes term) = [] := by
    refine List.filter_eq_nil_iff.mpr fun u member => ?_
    rw [Term.precedes_asymm ((List.pairwise_cons.mp behind).1 u member)]
    exact Bool.false_ne_true
  conv_rhs => rw [← split]
  rw [List.filter_append, front, List.filter_cons_of_neg (by simp), none, List.append_nil]

/-- Merging built runs in memory fails at the least term whose documents do not ascend over the
runs, with the first document at fault. The dictionary and the sink have the terms before it, with
the statistics and the postings of all runs that hold them, and nothing else; these are counted. Of
the cursors over the runs none is scheduled, and each was left closed. -/
theorem mergeRuns_of_descent {runs : Array Run} {term : Term}
    (built : ∀ i (hi : i < runs.size), runs[i].Built i layout)
    (short : ∀ u ∈ vocabulary runs.toList,
      (mergedPostings runs.toList u).length < UInt32.size)
    (few : (vocabulary runs.toList).length < UInt32.size)
    (descends : isAscending ((mergedPostings runs.toList term).map Posting.docId) = false)
    (least : ∀ u ∈ vocabulary runs.toList, u.precedes term = true →
      isAscending ((mergedPostings runs.toList u).map Posting.docId) = true) :
    ∃ (last next : UInt32) (m : Merge MemoryCursor ListSink) (dictionary : Array LexiconEntry),
      firstDescent ((mergedPostings runs.toList term).map Posting.docId) = some (last, next) ∧
      mergeRuns runs.size runs ListSink.empty (#[] : Array LexiconEntry) =
        (.error (.violation (.writtenOrder next last)), m, dictionary) ∧
      dictionary.toList.map LexiconEntry.term =
        (vocabulary runs.toList).filter (·.precedes term) ∧
      (∀ k (hk : k < dictionary.size), ∃ s,
        mergedStatistics runs.toList dictionary[k].term = .ok s ∧
        dictionary[k].statistics =
          { s with termId := some (UInt32.ofNat k), pointer := some ⟨k, 0⟩ }) ∧
      m.sink.lists.toList =
        dictionary.toList.map (fun e => mergedPostings runs.toList e.term) ∧
      m.progress = ⟨dictionary.size, total (m.sink.lists.toList.map List.length)⟩ ∧
      m.schedule.heap.toList = [] ∧
      m.schedule.ledger.given =
        (runs.toList.mapIdx fun i run => (i, MemoryCursor.start run)) ∧
      (m.schedule.ledger.left.map Prod.fst).Perm (List.range runs.size) ∧
      ∀ place ∈ m.schedule.ledger.left, place.2.isClosed = true := by
  have listed : ∀ i (hi : i < runs.toList.length), runs.toList[i].Built i layout := by
    simpa using built
  have combinable := combinable_of_built listed short
  have plan := combinable.plan (Nat.le_of_lt few)
  have here : term ∈ vocabulary runs.toList := by
    by_contra missing
    rw [mergedPostings_eq_nil missing] at descends
    cases descends
  obtain ⟨k, hk, rfl⟩ := List.mem_iff_getElem.mp here
  have before := take_vocabulary hk
  have opens := opens_memory (fun i hi => (built i hi).sound.index_eq) 0
  rw [List.drop_zero] at opens
  have stored : (ListSink.view layout).Has ListSink.empty [] := ⟨rfl, rfl⟩
  have entered : (arrayView layout).Has (#[] : Array LexiconEntry) [] := rfl
  obtain ⟨opener, started, begun, zero⟩ := Merge.reached_zero combinable opens stored entered 0
  obtain ⟨merged, m, dictionary, same, reached⟩ := Merge.exists_rest_eq plan zero k (by omega)
    (fun u member => by
      rw [Nat.zero_add, before] at member
      have ⟨listed, precedes⟩ := List.mem_filter.mp member
      exact least u listed precedes) #[]
  rw [Nat.zero_add] at reached
  obtain ⟨⟨last, next⟩, descent⟩ := Option.ne_none_iff_exists'.mp
    fun none => Bool.eq_false_iff.mp descends (firstDescent_eq_none_iff.mp none)
  obtain ⟨m', failed, sink, progress⟩ := Merge.step_of_refused plan reached hk
    fun yields => ListSink.write_of_descent reached.lists.2 yields descent
  have ended : mergeRuns runs.size runs ListSink.empty (#[] : Array LexiconEntry) =
      (.error (.violation (.writtenOrder next last)), m'.drop, dictionary) := by
    unfold mergeRuns
    rw [show Merge.start runs.size runs ListSink.empty 0 = _ from begun]
    dsimp only
    rw [same, Merge.rest_of_step_eq_error (Merge.running_of_reached reached hk) failed]
  have closed := Merge.closed_mergeRuns runs.size runs ListSink.empty (#[] : Array LexiconEntry)
  rw [show Merge.start runs.size runs ListSink.empty 0 = _ from begun, ended] at closed
  dsimp only [Schedule.asked] at closed
  rw [givenBefore_memory] at closed
  have positions : (runs.toList.mapIdx fun i run => (i, MemoryCursor.start run)).map Prod.fst =
      List.range runs.size := List.ext_getElem (by simp) (by simp)
  obtain ⟨terms, entries, lists, counted⟩ := reached.written plan (Nat.le_of_lt hk)
  refine ⟨last, next, m'.drop, dictionary, descent, ended, terms.trans before, entries, ?_, ?_,
    closed.unscheduled, closed.given_eq, ?_, fun place member => ?_⟩
  · rw [← lists, ← sink]
    rfl
  · rw [← sink] at counted
    exact progress.trans counted
  · rw [← positions]
    exact closed.positions
  · obtain ⟨cursor, -, became⟩ := closed.once place member
    exact (MemoryCursor.isClosed_of_became became).trans (Bool.or_true _)

/-- Two runs that share a document of their second term. -/
def clashingRuns : Array Run :=
  let layout : Layout := ⟨0, false⟩
  let entry (term : Term) (postings : List Posting) : RunEntry :=
    ⟨term, .ofPostings layout postings, postings⟩
  #[⟨0, layout, #[entry [97] [⟨1, 1, [], []⟩], entry [98] [⟨2, 1, [], []⟩, ⟨7, 2, [], []⟩]]⟩,
    ⟨1, layout, #[entry [97] [⟨9, 3, [], []⟩], entry [98] [⟨7, 1, [], []⟩, ⟨8, 1, [], []⟩],
      entry [99] [⟨7, 1, [], []⟩]]⟩]

theorem built_clashingRuns (i : Nat) (hi : i < clashingRuns.size) :
    clashingRuns[i].Built i ⟨0, false⟩ := by
  match i, hi with
  | 0, _ =>
    have given : Run.ofTerms 0 ⟨0, false⟩ [([97], [⟨1, 1, [], []⟩]),
        ([98], [⟨2, 1, [], []⟩, ⟨7, 2, [], []⟩])] = .ok clashingRuns[0] := rfl
    exact Run.built_of_ofTerms given
  | 1, _ =>
    have given : Run.ofTerms 1 ⟨0, false⟩ [([97], [⟨9, 3, [], []⟩]),
        ([98], [⟨7, 1, [], []⟩, ⟨8, 1, [], []⟩]), ([99], [⟨7, 1, [], []⟩])] =
        .ok clashingRuns[1] := rfl
    exact Run.built_of_ofTerms given

/-- The merge of the two runs stops at their second term and has the first. -/
theorem mergeRuns_of_descent_clashing :
    ∃ (m : Merge MemoryCursor ListSink) (dictionary : Array LexiconEntry),
      mergeRuns 2 clashingRuns ListSink.empty (#[] : Array LexiconEntry) =
        (.error (.violation (.writtenOrder 7 7)), m, dictionary) ∧
      dictionary.toList.map LexiconEntry.term = [[97]] ∧
      m.sink.lists.toList.map (·.map Posting.docId) = [[1, 9]] ∧ m.progress = ⟨1, 2⟩ ∧
      (m.schedule.ledger.left.map Prod.fst).Perm [0, 1] ∧
      ∀ place ∈ m.schedule.ledger.left, place.2.isClosed = true := by
  obtain ⟨last, next, m, dictionary, descent, failed, terms, -, lists, progress, -, -, closed⟩ :=
    @mergeRuns_of_descent ⟨0, false⟩ clashingRuns [98] built_clashingRuns (by decide) (by decide)
      (by decide) (by decide)
  have terms : dictionary.toList.map LexiconEntry.term = [[97]] := terms.trans (by decide)
  have postings := congrArg (List.map (mergedPostings clashingRuns.toList)) terms
  rw [List.map_map] at postings
  have lists : m.sink.lists.toList = [mergedPostings clashingRuns.toList [97]] :=
    lists.trans postings
  have size : dictionary.size = 1 := by
    rw [← Array.length_toList, ← List.length_map LexiconEntry.term, terms]
    rfl
  obtain ⟨rfl, rfl⟩ : 7 = last ∧ 7 = next := Prod.mk.inj (Option.some.inj descent)
  refine ⟨m, dictionary, failed, terms, by rw [lists]; decide, ?_, closed⟩
  rw [progress, lists, size]
  decide

end IndexMerge
