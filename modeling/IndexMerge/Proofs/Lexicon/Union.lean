import IndexMerge.Proofs.InvertedFile.View
import IndexMerge.Proofs.Run.Mergeable

/-!
# The lexicon of a union

The lists and the lexicon entries that belong to the union of runs, in the order of its terms
(`unionLists`, `unionEntries`). Each entry may come behind those before it (`follows_unionEntries`).
-/

namespace IndexMerge

/-- The lists of all terms of runs, in the order of the terms. -/
def unionLists (runs : List Run) : List (List Posting) :=
  (vocabulary runs).map (mergedPostings runs)

/-- The statistics of the term with a number, to which the number and the place of its list are
added. -/
def unionStatistics (place : List (List Posting) → BitPosition)
    (statistics : Term → TermStatistics) (runs : List Run) (id : Nat) (term : Term) :
    TermStatistics :=
  { statistics term with
    termId := some (UInt32.ofNat id), pointer := some (place ((unionLists runs).take id)) }

/-- The entries of all terms of runs, numbered in the order of the terms. -/
def unionEntries (place : List (List Posting) → BitPosition) (statistics : Term → TermStatistics)
    (runs : List Run) : List LexiconEntry :=
  (vocabulary runs).mapIdx fun id term => ⟨term, unionStatistics place statistics runs id term⟩

variable {place : List (List Posting) → BitPosition} {statistics : Term → TermStatistics}
  {runs : List Run} {layout : Layout} {k : Nat}

theorem length_unionLists : (unionLists runs).length = (vocabulary runs).length :=
  List.length_map ..

/-- The list with a number is that of the term with this number. -/
theorem getElem_unionLists (hk : k < (unionLists runs).length)
    (here : k < (vocabulary runs).length) :
    (unionLists runs)[k] = mergedPostings runs (vocabulary runs)[k] :=
  List.getElem_map ..

theorem take_unionLists_succ (hk : k < (vocabulary runs).length) :
    (unionLists runs).take (k + 1) =
      (unionLists runs).take k ++ [mergedPostings runs (vocabulary runs)[k]] := by
  have inside : k < (unionLists runs).length := by rwa [length_unionLists]
  rw [List.take_succ_eq_append_getElem inside, getElem_unionLists inside hk]

theorem length_unionEntries :
    (unionEntries place statistics runs).length = (vocabulary runs).length :=
  List.length_mapIdx

/-- The entry with a number is that of the term with this number. -/
theorem getElem_unionEntries (hk : k < (unionEntries place statistics runs).length)
    (here : k < (vocabulary runs).length) :
    (unionEntries place statistics runs)[k] =
      ⟨(vocabulary runs)[k], unionStatistics place statistics runs k (vocabulary runs)[k]⟩ :=
  List.getElem_mapIdx ..

theorem take_unionEntries_succ (hk : k < (vocabulary runs).length) :
    (unionEntries place statistics runs).take (k + 1) =
      (unionEntries place statistics runs).take k ++
        [⟨(vocabulary runs)[k], unionStatistics place statistics runs k (vocabulary runs)[k]⟩] := by
  have inside : k < (unionEntries place statistics runs).length := by rwa [length_unionEntries]
  rw [List.take_succ_eq_append_getElem inside, getElem_unionEntries inside hk]

theorem terms_unionEntries :
    (unionEntries place statistics runs).map LexiconEntry.term = vocabulary runs := by
  refine List.ext_getElem (by simp [length_unionEntries]) fun i hi here => ?_
  rw [List.getElem_map, getElem_unionEntries _ here]

/-- Runs that can be taken together, the statistics of their terms, and identifiers for all of
these. -/
structure EntryPlan (layout : Layout) (runs : List Run) (statistics : Term → TermStatistics) :
    Prop where
  combinable : Combinable layout runs
  combined : ∀ term ∈ vocabulary runs, mergedStatistics runs term = .ok (statistics term)
  few : (vocabulary runs).length ≤ UInt32.size

/-- Runs that can be merged, the statistics of their terms, and identifiers for all of these. -/
structure UnionPlan (layout : Layout) (runs : List Run) (statistics : Term → TermStatistics) :
    Prop extends EntryPlan layout runs statistics where
  documents : ∀ term, isAscending ((mergedPostings runs term).map Posting.docId) = true

/-- The statistics of a union are those of its postings. -/
theorem Combinable.plan (combinable : Combinable layout runs)
    (few : (vocabulary runs).length ≤ UInt32.size) :
    EntryPlan layout runs fun term => .ofPostings layout (mergedPostings runs term) :=
  ⟨combinable, fun _ here => combinable.statistics here, few⟩

theorem Mergeable.exists_plan (mergeable : Mergeable layout runs)
    (few : (vocabulary runs).length ≤ UInt32.size) :
    ∃ statistics, UnionPlan layout runs statistics :=
  ⟨_, mergeable.plan few, mergeable.documents⟩

/-- The statistics of a plan are those of the postings of its terms. -/
theorem EntryPlan.statistics_eq (plan : EntryPlan layout runs statistics) {term : Term}
    (here : term ∈ vocabulary runs) :
    statistics term = .ofPostings layout (mergedPostings runs term) :=
  Except.ok.inj ((plan.combined term here).symm.trans (plan.combinable.statistics here))

/-- The entry of the next term may come behind those of the terms before it. -/
theorem follows_unionEntries (plan : EntryPlan layout runs statistics)
    (hk : k < (vocabulary runs).length) :
    LexiconEntry.Follows layout ((unionEntries place statistics runs).take k)
      ⟨(vocabulary runs)[k],
        unionStatistics place statistics runs k (vocabulary runs)[k]⟩ := by
  have here : (vocabulary runs)[k] ∈ vocabulary runs := List.getElem_mem hk
  refine ⟨plan.combinable.length_term_le here, ?_, ?_, fun last found => ?_⟩
  · show (statistics (vocabulary runs)[k]).fieldFrequencies.length = _
    rw [plan.statistics_eq here]
    exact TermStatistics.length_fieldFrequencies_ofPostings
  · refine ⟨_, _, rfl, ?_, rfl⟩
    rw [List.length_take, length_unionEntries,
      UInt32.toNat_ofNat_of_lt' (Nat.lt_of_lt_of_le hk plan.few)]
    exact (Nat.min_eq_left (Nat.le_of_lt hk)).symm
  · have member : last.term ∈ (vocabulary runs).take k := by
      rw [← @terms_unionEntries place statistics runs, ← List.map_take]
      exact List.mem_map_of_mem (List.mem_of_getLast? found)
    have sorted := ascending_vocabulary runs
    rw [← List.take_append_drop k (vocabulary runs)] at sorted
    refine (List.pairwise_append.mp sorted).2.2 last.term member _ ?_
    rw [List.drop_eq_getElem_cons hk]
    exact List.mem_cons_self ..

end IndexMerge
