import IndexMerge.Merge.Loop
import IndexMerge.Proofs.Lexicon.Union
import IndexMerge.Proofs.Merge.Calls
import IndexMerge.Proofs.Schedule.Coverage

/-!
# Merging to the union

A merge of cursors that go over runs writes the union of the runs, term by term. After a number of
steps the sink and the dictionary hold the first terms of the union, and the schedule covers what
is left of the runs without these (`Reached`).
-/

namespace IndexMerge

open PostingSource

variable {F C S D : Type} [RunCursor C]

/-- What is left of runs without the first terms of their union. -/
structure IsLeft (layout : Layout) (runs : List Run) (k : Nat) (left : List Run) : Prop where
  combinable : Combinable layout left
  vocabulary_eq : vocabulary left = (vocabulary runs).drop k
  entriesOf_eq : ∀ term ∈ vocabulary left, entriesOf left term = entriesOf runs term

theorem IsLeft.next {layout : Layout} {runs left : List Run} {k : Nat} {term : Term}
    {terms : List Term} (h : IsLeft layout runs k left) (first : vocabulary left = term :: terms) :
    IsLeft layout runs (k + 1) (left.map (·.without term)) := by
  have behind := vocabulary_tail first
  refine ⟨h.combinable.without term, ?_, fun u member => ?_⟩
  · rw [behind, ← List.drop_drop, ← h.vocabulary_eq, first]
    rfl
  · rw [behind] at member
    have sorted := ascending_vocabulary left
    rw [first] at sorted
    have differ : u ≠ term := fun same => by
      have later := (List.pairwise_cons.mp sorted).1 u member
      rw [same, Term.precedes_irrefl] at later
      cases later
    rw [entriesOf_without differ]
    exact h.entriesOf_eq u (by rw [first]; exact List.mem_cons_of_mem term member)

namespace Lease

/-- Cursors that stand for runs on one term yield its postings run by run, and then they go over
what is left of the runs without it. -/
theorem yieldsEach_of_standsFor {leases : List (Lease C)} {runs : List Run} {term : Term}
    (stand : List.Forall₂ StandsFor leases runs) (here : ∀ lease ∈ leases, lease.term = term)
    (ascending : ∀ run ∈ runs, Term.Ascending run.terms) :
    ∃ after, YieldsEach (leases.map openPostings)
        ((entriesOf runs term).map (·.2.postings)) after ∧
      List.Forall₂ WalksOver after (runs.map (·.without term)) ∧
      leases.map (fun lease => RunCursor.statistics lease.cursor) =
        (entriesOf runs term).map (·.2.statistics) := by
  induction stand with
  | nil => exact ⟨[], trivial, .nil, rfl⟩
  | @cons lease run leases runs stands _ ih =>
    obtain ⟨e, entries, split, stands⟩ := stands
    obtain ⟨after, yields, walks⟩ := stands.yields
    obtain rfl : e.term = term := stands.term_eq.symm.trans (here lease (by simp))
    have ⟨found, left⟩ := Run.without_first (ascending run (by simp)) split
    obtain ⟨rest, yieldsRest, walksRest, statistics⟩ :=
      ih (fun other member => here other (by simp [member]))
        (fun other member => ascending other (by simp [member]))
    have entry : entriesOf (run :: runs) e.term = (run.index, e) :: entriesOf runs e.term :=
      List.filterMap_cons_some (by rw [found]; rfl)
    refine ⟨after :: rest, ?_, .cons ?_ walksRest, ?_⟩
    · rw [entry]
      exact ⟨yields, yieldsRest⟩
    · rw [WalksOver, left]
      exact walks
    · rw [entry, List.map_cons, List.map_cons, statistics, stands.statistics_eq]

end Lease

namespace Merge

theorem checkOrder_eq_ok {leases : List (Lease C)}
    (ascending : (leases.map Lease.runIndex).Pairwise (· < ·)) : checkOrder leases = .ok () := by
  induction leases with
  | nil => rfl
  | cons a leases ih =>
    cases leases with
    | nil => rfl
    | cons b rest =>
      have ⟨first, behind⟩ := List.pairwise_cons.mp ascending
      rw [checkOrder, if_pos (first b.runIndex (by simp))]
      exact ih behind

theorem combineAll_eq (first : Lease C) (rest : List (Lease C))
    (detached : (RunCursor.statistics first.cursor).detached = RunCursor.statistics first.cursor) :
    combineAll first rest =
      combineStatistics ((first :: rest).map fun lease => RunCursor.statistics lease.cursor) := by
  rw [combineAll, detached, List.map_cons, combineStatistics, List.foldlM_map]

variable [PostingSink S] {layout : Layout} {sinks : SinkView S layout}

theorem checkOrder_of_standsFor {runs : List Run} {term : Term} {leases : List (Lease C)}
    (combinable : Combinable layout runs)
    (stand : List.Forall₂ Lease.StandsFor leases (runs.filter (·.holds term))) :
    checkOrder leases = .ok () := by
  refine checkOrder_eq_ok ?_
  rw [← Lease.map_index_of_standsFor stand]
  exact List.pairwise_map.mpr (combinable.distinct.filter _)

/-- Cursors that stand for runs on one term yield its postings in all runs, as many as they
announce, and show its statistics. -/
theorem yields_of_standsFor {runs : List Run} {term : Term} {leases : List (Lease C)}
    (combinable : Combinable layout runs)
    (stand : List.Forall₂ Lease.StandsFor leases (runs.filter (·.holds term)))
    (here : ∀ lease ∈ leases, lease.term = term) :
    ∃ row : PostingSequence (Lease C), Yields (.ofList (leases.map Lease.openPostings))
        (mergedPostings runs term) row ∧
      List.Forall₂ Lease.WalksOver row.sources
        ((runs.filter (·.holds term)).map (·.without term)) ∧
      leases.map (fun lease => RunCursor.statistics lease.cursor) =
        (entriesOf runs term).map (·.2.statistics) ∧
      announced leases = (mergedPostings runs term).length := by
  obtain ⟨after, yields, walks, statistics⟩ := Lease.yieldsEach_of_standsFor stand here
    (fun run member => combinable.ascending run (List.mem_filter.mp member).1)
  rw [entriesOf_filter] at yields statistics
  obtain ⟨row, yields, sources⟩ := PostingSequence.yields_ofList yields
  have flat : ((entriesOf runs term).map (·.2.postings)).flatten = mergedPostings runs term :=
    (List.flatMap_def ..).symm
  rw [flat] at yields
  rw [← sources] at walks
  refine ⟨row, yields, walks, statistics, ?_⟩
  have asWords : announced leases =
      total ((leases.map fun lease => RunCursor.statistics lease.cursor).map
        fun s => s.documentFrequency.toNat) := by
    rw [announced, List.map_map]
    rfl
  rw [asWords, statistics, length_mergedPostings, List.map_map]
  congr 1
  exact List.map_congr_left fun e member => (combinable.entry (i := e.1) (e := e.2) member).2.2

/-- Cursors that stand for runs on one term have its statistics in all runs together. -/
theorem combineAll_of_standsFor {runs : List Run} {term : Term} {lease : Lease C}
    {rest : List (Lease C)} (combinable : Combinable layout runs)
    (stand : List.Forall₂ Lease.StandsFor (lease :: rest) (runs.filter (·.holds term)))
    (here : ∀ other ∈ lease :: rest, other.term = term) :
    combineAll lease rest = mergedStatistics runs term := by
  obtain ⟨-, -, -, shown, -⟩ := yields_of_standsFor combinable stand here
  have member : RunCursor.statistics lease.cursor ∈ (entriesOf runs term).map (·.2.statistics) := by
    rw [← shown]
    exact List.mem_cons_self ..
  obtain ⟨⟨i, e⟩, found, same⟩ := List.mem_map.mp member
  have detached : (RunCursor.statistics lease.cursor).detached =
      RunCursor.statistics lease.cursor := by
    rw [← same, (combinable.entry found).2.1.statistics_eq]
    exact TermStatistics.detached_ofPostings
  rw [combineAll_eq lease rest detached, shown, mergedStatistics]

/-- The postings of cursors that stand for runs on one term are stored as one list. -/
theorem store_eq_ok {runs : List Run} {term : Term} {leases : List (Lease C)} {sink : S}
    {lists : List (List Posting)} (has : sinks.Has sink lists) (combinable : Combinable layout runs)
    (documents : isAscending ((mergedPostings runs term).map Posting.docId) = true)
    (stand : List.Forall₂ Lease.StandsFor leases (runs.filter (·.holds term)))
    (here : ∀ lease ∈ leases, lease.term = term) :
    ∃ after sink', store term leases sink = (.ok (sinks.place lists), after, sink') ∧
      sinks.Has sink' (lists ++ [mergedPostings runs term]) ∧
      List.Forall₂ Lease.WalksOver after ((runs.filter (·.holds term)).map (·.without term)) := by
  obtain ⟨row, yields, walks, -, counts⟩ := yields_of_standsFor combinable stand here
  obtain ⟨sink', written, has'⟩ := sinks.write has (yields.counted 0) combinable.fits documents
  refine ⟨row.sources, sink', ?_, has', walks⟩
  unfold store
  dsimp only
  rw [written]
  dsimp only
  rw [if_pos (by rw [Nat.zero_add, counts])]

/-- After `k` steps the first `k` terms of the union are written. -/
structure Reached [Dictionary D] (sinks : SinkView S layout)
    (dictionaries : DictionaryView D layout) (statistics : Term → TermStatistics)
    (runs : List Run) (k : Nat) (m : Merge C S) (d : D) : Prop where
  sound : m.isPoisoned = false
  terms_eq : m.progress.terms = k
  postings_eq : m.progress.postings = total (((unionLists runs).take k).map List.length)
  lists : sinks.Has m.sink ((unionLists runs).take k)
  entries : dictionaries.Has d ((unionEntries sinks.place statistics runs).take k)
  left : ∃ left, Schedule.Covers m.schedule.heap left ∧ IsLeft layout runs k left

variable [Dictionary D] {dictionaries : DictionaryView D layout}

omit [PostingSink S] in
/-- A term that may come next is entered, and its cursors come back. -/
theorem enter_eq_ok {term : Term} {s : TermStatistics} {leases : List (Lease C)} {m : Merge C S}
    {d : D} {entries : List LexiconEntry} {left others : List Run} (numbers : List Nat)
    (pointer : BitPosition) (postings : Nat) (has : dictionaries.Has d entries)
    (terms : m.progress.terms < UInt32.size)
    (follows : LexiconEntry.Follows layout entries ⟨term, { s with
      termId := some (UInt32.ofNat m.progress.terms), pointer := some pointer }⟩)
    (covers : Schedule.Covers m.schedule.heap others)
    (walk : List.Forall₂ Lease.WalksOver leases left) :
    ∃ schedule d', Schedule.Covers schedule.heap (left ++ others) ∧
      dictionaries.Has d' (entries ++ [⟨term, { s with
        termId := some (UInt32.ofNat m.progress.terms), pointer := some pointer }⟩]) ∧
      enter term numbers s pointer postings leases m d =
        (.ok ⟨term, UInt32.ofNat m.progress.terms, numbers, { s with
          termId := some (UInt32.ofNat m.progress.terms), pointer := some pointer }⟩,
        { m with
          progress := ⟨m.progress.terms + 1, m.progress.postings + postings⟩, schedule }, d') := by
  obtain ⟨d', added, has'⟩ := dictionaries.add has follows
  unfold enter
  rw [if_neg (Nat.not_le_of_lt terms)]
  dsimp only
  rw [added]
  dsimp only
  generalize counted : MergedTerm.mk term _ numbers _ = merged
  obtain ⟨ledger, told⟩ := count_eq m merged pointer postings
  obtain ⟨schedule, requeued, covers'⟩ := Schedule.covers_requeueAll
    (s := { m.schedule with ledger }) covers walk
  refine ⟨schedule, d', covers', has', ?_⟩
  rw [told]
  dsimp only
  rw [requeued]

variable {statistics : Term → TermStatistics} {runs : List Run} {k : Nat}

/-- A group that stands for the runs that hold the next term is written, and the schedule covers
what is left of the runs. -/
theorem writeGroup_eq_ok {m : Merge C S} {d : D} {left : List Run} {lease : Lease C}
    {rest : List (Lease C)} (plan : EntryPlan layout runs statistics)
    (hk : k < (vocabulary runs).length)
    (documents : isAscending ((mergedPostings runs (vocabulary runs)[k]).map Posting.docId) = true)
    (isLeft : IsLeft layout runs k left)
    (terms : m.progress.terms = k) (lists : sinks.Has m.sink ((unionLists runs).take k))
    (entries : dictionaries.Has d ((unionEntries sinks.place statistics runs).take k))
    (onTerm : ∀ other ∈ lease :: rest, other.term = (vocabulary runs)[k])
    (stand : List.Forall₂ Lease.StandsFor (lease :: rest)
      (left.filter (·.holds (vocabulary runs)[k])))
    (covers : Schedule.Covers m.schedule.heap
      (left.filter fun run => !run.holds (vocabulary runs)[k])) :
    ∃ schedule sink d', writeGroup lease rest m d =
        (.ok ⟨(vocabulary runs)[k], UInt32.ofNat k,
          (entriesOf runs (vocabulary runs)[k]).map (·.1),
          unionStatistics sinks.place statistics runs k (vocabulary runs)[k]⟩,
          { m with
            progress := ⟨k + 1, m.progress.postings +
              (mergedPostings runs (vocabulary runs)[k]).length⟩, schedule, sink }, d') ∧
      Schedule.Covers schedule.heap (left.map (·.without (vocabulary runs)[k])) ∧
      sinks.Has sink ((unionLists runs).take (k + 1)) ∧
      dictionaries.Has d' ((unionEntries sinks.place statistics runs).take (k + 1)) := by
  have follows := @follows_unionEntries sinks.place statistics runs layout k plan hk
  have few := plan.few
  rw [take_unionLists_succ hk, take_unionEntries_succ hk]
  generalize chosen : (vocabulary runs)[k] = term at *
  have here : term ∈ vocabulary left := by
    rw [isLeft.vocabulary_eq, List.drop_eq_getElem_cons hk, chosen]
    exact List.mem_cons_self ..
  have same := isLeft.entriesOf_eq term here
  have samePostings : mergedPostings left term = mergedPostings runs term := by
    rw [mergedPostings, same, mergedPostings]
  obtain ⟨-, -, -, -, counts⟩ := yields_of_standsFor isLeft.combinable stand onTerm
  obtain ⟨after, sink, stored, has, walk⟩ :=
    store_eq_ok lists isLeft.combinable (by rwa [samePostings]) stand onTerm
  obtain ⟨schedule, d', covers', has', entered⟩ := enter_eq_ok (m := { m with sink })
    (s := statistics term) ((lease :: rest).map Lease.runIndex)
    (sinks.place ((unionLists runs).take k)) (announced (lease :: rest)) entries
    (by rw [terms]; omega) (by dsimp only; rw [terms]; exact follows) covers walk
  refine ⟨schedule, sink, d', ?_, covers'.perm (perm_without left term), ?_, ?_⟩
  · have numbers : (lease :: rest).map Lease.runIndex = (entriesOf runs term).map (·.1) := by
      rw [← Lease.map_index_of_standsFor stand, map_index_holders, same]
    have taken : combineAll lease rest = .ok (statistics term) := by
      rw [combineAll_of_standsFor isLeft.combinable stand onTerm, mergedStatistics, same]
      refine plan.combined term ?_
      rw [← chosen]
      exact List.getElem_mem hk
    unfold writeGroup
    dsimp only
    rw [checkOrder_of_standsFor isLeft.combinable stand]
    dsimp only
    rw [taken]
    dsimp only
    rw [onTerm lease (by simp), stored]
    dsimp only
    rw [entered, counts, numbers, samePostings]
    simp only [terms, unionStatistics]
  · rwa [samePostings] at has
  · rwa [terms] at has'

/-- The term that the step with a number writes. -/
def planned (sinks : SinkView S layout) (statistics : Term → TermStatistics) (runs : List Run)
    (k : Nat) (hk : k < (vocabulary runs).length) : MergedTerm :=
  ⟨(vocabulary runs)[k], UInt32.ofNat k, (entriesOf runs (vocabulary runs)[k]).map (·.1),
    unionStatistics sinks.place statistics runs k (vocabulary runs)[k]⟩

theorem reached_step {m : Merge C S} {d : D} (plan : EntryPlan layout runs statistics)
    (h : Reached sinks dictionaries statistics runs k m d) (hk : k < (vocabulary runs).length)
    (documents :
      isAscending ((mergedPostings runs (vocabulary runs)[k]).map Posting.docId) = true) :
    ∃ m' d', m.step d = (.ok (planned sinks statistics runs k hk), m', d') ∧
      Reached sinks dictionaries statistics runs (k + 1) m' d' := by
  obtain ⟨left, covers, isLeft⟩ := h.left
  have first : vocabulary left =
      (vocabulary runs)[k] :: (vocabulary runs).drop (k + 1) := by
    rw [isLeft.vocabulary_eq, List.drop_eq_getElem_cons hk]
  obtain ⟨lease, rest, schedule, popped, onTerm, stand, covers'⟩ := Schedule.covers_popGroup covers
    isLeft.combinable.ascending isLeft.combinable.distinct first
  obtain ⟨schedule', sink, d', written, covered, lists, entries⟩ := writeGroup_eq_ok
    (m := { m with schedule }) plan hk documents isLeft h.terms_eq h.lists h.entries onTerm stand
    covers'
  refine ⟨{ m with
    progress := ⟨k + 1, m.progress.postings + (mergedPostings runs (vocabulary runs)[k]).length⟩
    schedule := schedule', sink }, d', ?_, h.sound, rfl, ?_, lists, entries, _, covered,
    isLeft.next first⟩
  · unfold step
    rw [if_neg (by simp [h.sound]), popped]
    dsimp only
    rw [written]
    rfl
  · rw [take_unionLists_succ hk, List.map_append, total_append, ← h.postings_eq]
    rfl

/-- The merge is done when all terms of the union are written, and not before. -/
theorem isDone_of_reached {m : Merge C S} {d : D}
    (h : Reached sinks dictionaries statistics runs k m d) :
    m.isDone = true ↔ (vocabulary runs).length ≤ k := by
  obtain ⟨left, covers, isLeft⟩ := h.left
  have empty : m.schedule.isEmpty = true ↔ m.schedule.heap.toList = [] := by
    simp [Schedule.isEmpty, Schedule.size, Heap.size, Heap.toList]
  rw [isDone, h.sound, Bool.not_false, Bool.true_and, empty, covers.toList_eq_nil_iff,
    isLeft.vocabulary_eq, List.drop_eq_nil_iff]

theorem running_of_reached {m : Merge C S} {d : D}
    (h : Reached sinks dictionaries statistics runs k m d) (hk : k < (vocabulary runs).length) :
    m.isDone = false := by
  rw [← Bool.not_eq_true, isDone_of_reached h]
  omega

theorem reached_perform {m : Merge C S} {d : D} (plan : UnionPlan layout runs statistics)
    (h : Reached sinks dictionaries statistics runs k m d) (count : Nat)
    (enough : k + count ≤ (vocabulary runs).length) :
    Reached sinks dictionaries statistics runs (k + count)
      (perform (List.replicate count .step) m d).1
      (perform (List.replicate count .step) m d).2 := by
  induction count generalizing k m d with
  | zero => exact h
  | succ count ih =>
    obtain ⟨m', d', stepped, next⟩ :=
      reached_step plan.toEntryPlan h (by omega) (plan.documents _)
    have rest := ih next (by omega)
    rw [List.replicate_succ, perform_cons]
    simp only [call, stepped]
    rwa [Nat.add_right_comm] at rest

/-- As many steps as there are terms are taken, and the step with a number writes the term with this
number. -/
theorem step_perform {m : Merge C S} {d : D} (plan : UnionPlan layout runs statistics)
    (zero : Reached sinks dictionaries statistics runs 0 m d) (le : k ≤ (vocabulary runs).length) :
    let (m, d) := perform (List.replicate k .step) m d
    m.isDone = decide (k = (vocabulary runs).length) ∧
    ∀ hk, (m.step d).1 = .ok (planned sinks statistics runs k hk) := by
  have reached := reached_perform plan zero k (by omega)
  rw [Nat.zero_add] at reached
  generalize perform (List.replicate k .step) m d = state at reached
  refine ⟨?_, fun hk => ?_⟩
  · rw [Bool.eq_iff_iff, isDone_of_reached reached, decide_eq_true_eq]
    omega
  · obtain ⟨m', d', stepped, -⟩ :=
      reached_step plan.toEntryPlan reached hk (plan.documents _)
    rw [stepped]

/-- Merging to the end first writes the next terms of the union, as long as the documents of each
ascend. -/
theorem exists_rest_eq {m : Merge C S} {d : D} (plan : EntryPlan layout runs statistics)
    (h : Reached sinks dictionaries statistics runs k m d) (count : Nat)
    (enough : k + count ≤ (vocabulary runs).length)
    (documents : ∀ term ∈ (vocabulary runs).take (k + count),
      isAscending ((mergedPostings runs term).map Posting.docId) = true)
    (done : Array MergedTerm) :
    ∃ merged m' d', m.rest d done = m'.rest d' merged ∧
      Reached sinks dictionaries statistics runs (k + count) m' d' := by
  induction count generalizing k m d done with
  | zero => exact ⟨done, m, d, rfl, h⟩
  | succ count ih =>
    have hk : k < (vocabulary runs).length := by omega
    have here : (vocabulary runs)[k] ∈ (vocabulary runs).take (k + (count + 1)) :=
      List.mem_take_iff_getElem.mpr ⟨k, by omega, rfl⟩
    obtain ⟨m', d', stepped, next⟩ := reached_step plan h hk (documents _ here)
    rw [Nat.add_left_comm, Nat.add_comm] at documents ⊢
    obtain ⟨merged, m'', d'', same, reached⟩ := ih next (by omega) documents
      (done.push (planned sinks statistics runs k hk))
    refine ⟨merged, m'', d'', ?_, reached⟩
    rw [← same, rest_of_step_eq_ok (running_of_reached h hk) stepped]

/-- Merging to the end writes all terms of the union. -/
theorem reached_rest {m : Merge C S} {d : D} (plan : UnionPlan layout runs statistics)
    (h : Reached sinks dictionaries statistics runs k m d) (le : k ≤ (vocabulary runs).length)
    (done : Array MergedTerm) :
    ∃ merged m' d', m.rest d done = (.ok (), merged, m', d') ∧
      Reached sinks dictionaries statistics runs (vocabulary runs).length m' d' := by
  have all : k + ((vocabulary runs).length - k) = (vocabulary runs).length := by omega
  obtain ⟨merged, m', d', same, reached⟩ := exists_rest_eq plan.toEntryPlan h
    ((vocabulary runs).length - k) (by omega) (fun term _ => plan.documents term) done
  rw [all] at reached
  refine ⟨merged, m', d', ?_, reached⟩
  rw [same, rest, if_pos ((isDone_of_reached reached).mpr (Nat.le_refl _))]

variable [RunOpener F C]

theorem reached_zero {opener : F} {sink : S} {d : D} (combinable : Combinable layout runs)
    (opens : Schedule.Opens opener 0 runs) (lists : sinks.Has sink [])
    (entries : dictionaries.Has d []) (interval : Nat) :
    ∃ opener' m, start (C := C) runs.length opener sink interval = (.ok (), opener', m) ∧
      Reached sinks dictionaries statistics runs 0 m d := by
  obtain ⟨opener', schedule, started, covers⟩ := Schedule.covers_start opens
  refine ⟨opener', _, by rw [start, started], rfl, rfl, rfl, lists, entries, runs, covers,
    combinable, rfl, fun _ _ => rfl⟩

theorem reached_start {opener : F} {sink : S} {d : D} (plan : UnionPlan layout runs statistics)
    (opens : Schedule.Opens opener 0 runs) (lists : sinks.Has sink [])
    (entries : dictionaries.Has d []) (interval : Nat) :
    ∃ opener' m, start (C := C) runs.length opener sink interval = (.ok (), opener', m) ∧
      Reached sinks dictionaries statistics runs 0 m d :=
  reached_zero plan.combinable opens lists entries interval

end Merge

variable [PostingSink S] [Dictionary D] [RunOpener F C] {layout : Layout}
  {sinks : SinkView S layout} {dictionaries : DictionaryView D layout} {runs : List Run}
  {statistics : Term → TermStatistics}

/-- Merging runs stores the lists and the entries of their union. -/
theorem mergeRuns_of_opens {opener : F} {sink : S} {d : D}
    (plan : UnionPlan layout runs statistics) (opens : Schedule.Opens opener 0 runs)
    (lists : sinks.Has sink []) (entries : dictionaries.Has d []) :
    ∃ (m : Merge C S) (d' : D), mergeRuns runs.length opener sink d =
        (.ok ⟨(vocabulary runs).length, total (runs.map Run.postingCount)⟩, m, d') ∧
      sinks.Closed m.sink (unionLists runs) ∧
      dictionaries.Has d' (unionEntries sinks.place statistics runs) := by
  obtain ⟨opener', started, begun, zero⟩ :=
    Merge.reached_start plan opens lists entries 0
  obtain ⟨merged, m, d', done, all⟩ := Merge.reached_rest plan zero (Nat.zero_le _) #[]
  have stored := all.lists
  rw [List.take_of_length_le (Nat.le_of_eq length_unionLists)] at stored
  have entered := all.entries
  rw [List.take_of_length_le (Nat.le_of_eq length_unionEntries)] at entered
  obtain ⟨sink', closed, kept⟩ := sinks.close stored
  have ended : m.schedule.isEmpty = true := by
    have isDone := (Merge.isDone_of_reached all).mpr (Nat.le_refl _)
    rw [Merge.isDone, Bool.and_eq_true] at isDone
    exact isDone.2
  have progress : m.progress = ⟨(vocabulary runs).length, total (runs.map Run.postingCount)⟩ := by
    have counted := all.postings_eq
    rw [List.take_of_length_le (Nat.le_of_eq length_unionLists), unionLists,
      List.map_map] at counted
    rw [← total_mergedPostings plan.combinable.ascending]
    exact congrArg₂ Progress.mk all.terms_eq counted
  refine ⟨{ m with sink := sink' }.tell (.mergeFinished m.progress.terms m.progress.postings), d',
    ?_, kept, entered⟩
  unfold mergeRuns
  rw [begun]
  dsimp only
  rw [done]
  dsimp only
  unfold Merge.finish
  rw [if_pos ended]
  dsimp only
  rw [closed, progress]

end IndexMerge
