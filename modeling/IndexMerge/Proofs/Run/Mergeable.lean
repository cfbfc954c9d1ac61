import IndexMerge.Proofs.Run.Statistics

/-!
# Runs that can be merged

Runs can be taken together if each keeps the rules, their numbers ascend, and the documents of every
term can be counted over all runs (`Combinable`). This still holds of what is left of them when a
term was taken out (`Combinable.without`), so it is kept by a merge. They can be merged to the end
if the documents of every term ascend over all runs as well (`Mergeable`).
-/

namespace IndexMerge

variable {layout : Layout} {runs : List Run} {term u : Term}

/-- What runs have to be like for their entries to be taken together. -/
structure Combinable (layout : Layout) (runs : List Run) : Prop where
  ascending : ∀ run ∈ runs, Term.Ascending run.terms
  entries : ∀ run ∈ runs, ∀ e ∈ run.entries.toList, e.Sound layout
  distinct : runs.Pairwise fun a b => a.index < b.index
  short : ∀ term, (mergedPostings runs term).length < UInt32.size

/-- What runs have to be like for their union to be stored. -/
structure Mergeable (layout : Layout) (runs : List Run) : Prop extends
    Combinable layout runs where
  documents : ∀ term, isAscending ((mergedPostings runs term).map Posting.docId) = true

theorem entriesOf_eq_nil_iff : entriesOf runs term = [] ↔ term ∉ vocabulary runs := by
  rw [mem_vocabulary, entriesOf, List.filterMap_eq_nil_iff]
  simp [← Run.holds_iff, Run.holds]

/-- Each run that has a term adds its postings. -/
theorem mergedPostings_eq_flatMap (runs : List Run) (term : Term) :
    mergedPostings runs term =
      runs.flatMap fun run => ((run.find? term).map (·.postings)).getD [] := by
  unfold mergedPostings entriesOf
  induction runs with
  | nil => rfl
  | cons run runs ih =>
    rw [List.flatMap_cons, ← ih]
    cases found : run.find? term with
    | none => rw [List.filterMap_cons_none (by rw [found]; rfl)]; rfl
    | some e => rw [List.filterMap_cons_some (by rw [found]; rfl), List.flatMap_cons]; rfl

/-- A term that is in no run has no postings. -/
theorem mergedPostings_eq_nil (missing : term ∉ vocabulary runs) :
    mergedPostings runs term = [] := by
  rw [mergedPostings, entriesOf_eq_nil_iff.mpr missing, List.flatMap_nil]

theorem mergedPostings_without (differ : u ≠ term) :
    mergedPostings (runs.map (·.without term)) u = mergedPostings runs u := by
  rw [mergedPostings, entriesOf_without differ, mergedPostings]

theorem mergedPostings_without_self (runs : List Run) (term : Term) :
    mergedPostings (runs.map (·.without term)) term = [] := by
  refine mergedPostings_eq_nil fun here => ?_
  obtain ⟨left, listed, found⟩ := mem_vocabulary.mp here
  obtain ⟨run, -, rfl⟩ := List.mem_map.mp listed
  exact (Run.mem_terms_without.mp found).2 rfl

namespace Combinable

theorem without (h : Combinable layout runs) (term : Term) :
    Combinable layout (runs.map (·.without term)) where
  ascending left listed := by
    obtain ⟨run, member, rfl⟩ := List.mem_map.mp listed
    exact Run.ascending_without (h.ascending run member)
  entries left listed e found := by
    obtain ⟨run, member, rfl⟩ := List.mem_map.mp listed
    rw [Run.toList_without] at found
    exact h.entries run member e (List.mem_filter.mp found).1
  distinct := List.pairwise_map.mpr h.distinct
  short u := by
    by_cases same : u = term
    · rw [same, mergedPostings_without_self]
      decide
    · rw [mergedPostings_without same]
      exact h.short u

/-- An entry of a term in one of the runs is sound, and its statistics count its postings. -/
theorem entry (h : Combinable layout runs) {i : Nat} {e : RunEntry}
    (member : (i, e) ∈ entriesOf runs term) :
    e.term = term ∧ e.Sound layout ∧
      e.statistics.documentFrequency.toNat = e.postings.length := by
  obtain ⟨run, listed, found, -⟩ := mem_entriesOf member
  have sound := h.entries run listed e (Array.mem_toList_iff.mpr (Run.mem_of_find? found))
  refine ⟨Run.term_of_find? found, sound, ?_⟩
  have short := h.short term
  obtain ⟨front, behind, split⟩ := List.append_of_mem member
  rw [length_mergedPostings, split, List.map_append, List.map_cons, total_append,
    total_cons] at short
  rw [sound.statistics_eq]
  exact TermStatistics.documentFrequency_ofPostings (by dsimp only at short; omega)

theorem length_term_le (h : Combinable layout runs) (here : term ∈ vocabulary runs) :
    term.length ≤ Term.maxLength := by
  cases entries : entriesOf runs term with
  | nil => exact absurd here (entriesOf_eq_nil_iff.mp entries)
  | cons first rest =>
    obtain ⟨i, e⟩ := first
    have member : (i, e) ∈ entriesOf runs term := by
      rw [entries]
      exact List.mem_cons_self ..
    obtain ⟨rfl, sound, -⟩ := h.entry member
    exact sound.length_le

/-- Every posting of a term in the runs fits the layout. -/
theorem fits (h : Combinable layout runs) :
    ∀ p ∈ mergedPostings runs term, layout.check p = .ok () := by
  intro p found
  obtain ⟨⟨i, e⟩, member, found⟩ := List.mem_flatMap.mp found
  exact (h.entry member).2.1.fits p found

/-- The statistics of a term of the runs are those of its postings in all of them. -/
theorem statistics (h : Combinable layout runs) (here : term ∈ vocabulary runs) :
    mergedStatistics runs term = .ok (.ofPostings layout (mergedPostings runs term)) :=
  mergedStatistics_eq h.entries (h.short term) fun none => entriesOf_eq_nil_iff.mp none here

end Combinable

theorem Run.postingCount_eq (run : Run) :
    run.postingCount = total (run.entries.toList.map (·.postings.length)) := by
  have count : ∀ (entries : List RunEntry) (n : Nat),
      entries.foldl (fun count e => count + e.postings.length) n =
        n + total (entries.map (·.postings.length)) := by
    intro entries
    induction entries with
    | nil => intro n; rfl
    | cons e entries ih =>
      intro n
      rw [List.foldl_cons, ih, List.map_cons, total_cons, Nat.add_assoc]
  rw [postingCount, ← Array.foldl_toList, count, Nat.zero_add]

/-- The postings of a term in a run and those of its other terms are all its postings. -/
theorem Run.postingCount_without {run : Run} (h : Term.Ascending run.terms) (term : Term) :
    ((run.find? term).map (·.postings.length)).getD 0 + (run.without term).postingCount =
      run.postingCount := by
  rw [postingCount_eq, postingCount_eq, toList_without, find?]
  rw [terms] at h
  generalize run.entries.toList = entries at h ⊢
  induction entries with
  | nil => rfl
  | cons e entries ih =>
    rw [List.map_cons] at h
    obtain ⟨first, rest⟩ := List.pairwise_cons.mp h
    by_cases same : e.term = term
    · rw [List.find?_cons_of_pos (by simp [same]), List.filter_cons_of_neg (by simp [same]),
        filter_behind (same ▸ first)]
      rfl
    · rw [List.find?_cons_of_neg (by simp [same]), List.filter_cons_of_pos (by simp [same]),
        List.map_cons, List.map_cons, total_cons, total_cons, ← ih rest]
      omega

theorem total_postings_without (h : ∀ run ∈ runs, Term.Ascending run.terms) (term : Term) :
    (mergedPostings runs term).length +
      total ((runs.map (·.without term)).map Run.postingCount) =
      total (runs.map Run.postingCount) := by
  rw [length_mergedPostings]
  induction runs with
  | nil => rfl
  | cons run runs ih =>
    have rest := ih fun other member => h other (List.mem_cons_of_mem _ member)
    have first := Run.postingCount_without (h run (by simp)) term
    simp only [List.map_cons, total_cons, ← rest, ← first, entriesOf]
    cases found : run.find? term with
    | none =>
      rw [List.filterMap_cons_none (by rw [found]; rfl)]
      simp only [Option.map_none, Option.getD_none]
      omega
    | some e =>
      rw [List.filterMap_cons_some (by rw [found]; rfl)]
      simp only [Option.map_some, Option.getD_some, List.map_cons, total_cons]
      omega

/-- The lists of all terms together have the postings of all runs. -/
theorem total_mergedPostings (h : ∀ run ∈ runs, Term.Ascending run.terms) :
    total ((vocabulary runs).map fun term => (mergedPostings runs term).length) =
      total (runs.map Run.postingCount) := by
  generalize terms : vocabulary runs = all
  induction all generalizing runs with
  | nil =>
    refine (total_eq_zero fun n listed => ?_).symm
    obtain ⟨run, member, rfl⟩ := List.mem_map.mp listed
    rw [Run.postingCount_eq]
    cases entries : run.entries.toList with
    | nil => rfl
    | cons e rest =>
      have found : e.term ∈ vocabulary runs :=
        mem_vocabulary.mpr ⟨run, member, by simp [Run.terms, entries]⟩
      rw [terms] at found
      cases found
  | cons term all ih =>
    have sorted := ascending_vocabulary runs
    rw [terms] at sorted
    have left := @ih (runs.map (·.without term))
      (fun left listed => by
        obtain ⟨run, member, rfl⟩ := List.mem_map.mp listed
        exact Run.ascending_without (h run member))
      (vocabulary_tail terms)
    have same : (all.map fun u => (mergedPostings (runs.map (·.without term)) u).length) =
        all.map fun u => (mergedPostings runs u).length := by
      refine List.map_congr_left fun u member => ?_
      rw [mergedPostings_without fun same => ?_]
      have behind := (List.pairwise_cons.mp sorted).1 u member
      rw [same, Term.precedes_irrefl] at behind
      cases behind
    rw [List.map_cons, total_cons, ← same, left, total_postings_without h]

end IndexMerge
