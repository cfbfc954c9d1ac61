import IndexMerge.Proofs.Run.Built
import Mathlib.Data.List.Perm.Subperm

/-!
# Statistics of a union

The statistics of a list of postings count it as long as the count is a word of 32 bits. Those of
several lists taken together are those of the lists one behind another (`combine_ofPostings`), so
the statistics of a union are those of its postings (`mergedStatistics_eq`).
-/

namespace IndexMerge

namespace TermStatistics

variable {layout : Layout} {postings : List Posting} {mine theirs s : TermStatistics}

theorem length_addFields (totals : List UInt64) (frequencies : List UInt32) :
    (addFields totals frequencies).length = totals.length := by
  simp only [addFields, List.length_zipWith, List.length_append, List.length_map,
    List.length_replicate]
  omega

theorem length_foldl_addFields (postings : List Posting) (totals : List UInt64) :
    (postings.foldl (fun totals p => addFields totals p.fieldFrequencies) totals).length =
      totals.length := by
  induction postings generalizing totals with
  | nil => rfl
  | cons p postings ih => rw [List.foldl_cons, ih, length_addFields]

theorem length_fieldFrequencies_ofPostings :
    (ofPostings layout postings).fieldFrequencies.length = layout.fieldCount.toNat := by
  rw [ofPostings, length_foldl_addFields, List.length_replicate]

theorem documentFrequency_ofPostings (short : postings.length < UInt32.size) :
    (ofPostings layout postings).documentFrequency.toNat = postings.length :=
  Nat.mod_eq_of_lt short

/-- Statistics that were given neither an identifier nor a pointer. -/
theorem detached_ofPostings : (ofPostings layout postings).detached = ofPostings layout postings :=
  rfl

/-- What is added to totals by field may be added to a part of them. -/
theorem zipWith_addFields {totals more : List UInt64} (same : totals.length = more.length)
    (frequencies : List UInt32) :
    addFields (List.zipWith (· + ·) totals more) frequencies =
      List.zipWith (· + ·) totals (addFields more frequencies) := by
  have length : (List.zipWith (· + ·) totals more).length = more.length := by
    rw [List.length_zipWith, same, Nat.min_self]
  rw [addFields, addFields, length]
  refine List.ext_getElem (by simp [same]) fun i hi here => ?_
  simp only [List.getElem_zipWith, UInt64.add_assoc]

theorem foldl_addFields {totals more : List UInt64} (same : totals.length = more.length)
    (postings : List Posting) :
    postings.foldl (fun totals p => addFields totals p.fieldFrequencies)
        (List.zipWith (· + ·) totals more) =
      List.zipWith (· + ·) totals
        (postings.foldl (fun totals p => addFields totals p.fieldFrequencies) more) := by
  induction postings generalizing more with
  | nil => rfl
  | cons p postings ih =>
    rw [List.foldl_cons, zipWith_addFields same, ih (by rw [length_addFields, same]),
      List.foldl_cons]

theorem foldl_frequency (postings : List Posting) (sum more : UInt64) :
    postings.foldl (fun sum p => sum + p.frequency.toUInt64) (sum + more) =
      sum + postings.foldl (fun sum p => sum + p.frequency.toUInt64) more := by
  induction postings generalizing more with
  | nil => rfl
  | cons p postings ih => rw [List.foldl_cons, UInt64.add_assoc, ih, List.foldl_cons]

theorem zipWith_zero (totals : List UInt64) :
    List.zipWith (· + ·) totals (List.replicate totals.length 0) = totals := by
  refine List.ext_getElem (by simp) fun i hi here => ?_
  simp

/-- The statistics of two lists together are those of the lists one behind the other. -/
theorem combine_ofPostings {behind : List Posting}
    (short : postings.length + behind.length < UInt32.size) :
    (ofPostings layout postings).combine (ofPostings layout behind) =
      .ok (ofPostings layout (postings ++ behind)) := by
  have count : (ofPostings layout postings).documentFrequency.toNat = postings.length :=
    documentFrequency_ofPostings (by omega)
  have more : (ofPostings layout behind).documentFrequency.toNat = behind.length :=
    documentFrequency_ofPostings (by omega)
  have fields := @length_fieldFrequencies_ofPostings layout postings
  have documents : (ofPostings layout (postings ++ behind)).documentFrequency =
      (ofPostings layout postings).documentFrequency +
        (ofPostings layout behind).documentFrequency := by
    show UInt32.ofNat (postings ++ behind).length = _
    rw [List.length_append, UInt32.ofNat_add]
    rfl
  have occurrences : (ofPostings layout (postings ++ behind)).frequency =
      (ofPostings layout postings).frequency + (ofPostings layout behind).frequency := by
    have added := foldl_frequency behind (ofPostings layout postings).frequency 0
    rw [UInt64.add_zero] at added
    exact List.foldl_append.trans added
  have byField : (ofPostings layout (postings ++ behind)).fieldFrequencies =
      List.zipWith (· + ·) (ofPostings layout postings).fieldFrequencies
        (ofPostings layout behind).fieldFrequencies := by
    have zeros := zipWith_zero (ofPostings layout postings).fieldFrequencies
    rw [fields] at zeros
    have length : (ofPostings layout postings).fieldFrequencies.length =
        (List.replicate layout.fieldCount.toNat (0 : UInt64)).length := by
      rw [fields, List.length_replicate]
    have added := foldl_addFields length behind
    rw [zeros] at added
    exact List.foldl_append.trans added
  rw [combine_eq, if_neg (by simp [length_fieldFrequencies_ofPostings]), if_neg (by omega),
    ← documents, ← occurrences, ← byField]
  rfl

/-- The statistics of several lists together are those of the lists one behind another. -/
theorem foldlM_combine_ofPostings {lists : List (List Posting)}
    (short : postings.length + lists.flatten.length < UInt32.size) :
    (lists.map (ofPostings layout)).foldlM combine (ofPostings layout postings) =
      .ok (ofPostings layout (postings ++ lists.flatten)) := by
  induction lists generalizing postings with
  | nil => rw [List.flatten_nil, List.append_nil]; rfl
  | cons next lists ih =>
    rw [List.flatten_cons, List.length_append] at short
    rw [List.map_cons, List.foldlM_cons, combine_ofPostings (by omega), List.flatten_cons,
      ← List.append_assoc]
    exact ih (by rw [List.length_append]; omega)

end TermStatistics

variable {layout : Layout} {runs : List Run} {term : Term}

/-- The entries of a term come from the runs. -/
theorem mem_entriesOf {i : Nat} {e : RunEntry} (member : (i, e) ∈ entriesOf runs term) :
    ∃ run ∈ runs, run.find? term = some e ∧ run.index = i := by
  obtain ⟨run, listed, found⟩ := List.mem_filterMap.mp member
  obtain ⟨e', found, same⟩ := Option.map_eq_some_iff.mp found
  cases same
  exact ⟨run, listed, found, rfl⟩

theorem length_mergedPostings : (mergedPostings runs term).length =
    total ((entriesOf runs term).map (·.2.postings.length)) := by
  unfold mergedPostings
  induction entriesOf runs term with
  | nil => rfl
  | cons e entries ih => simp [ih]

/-- A run has no more entries than there are terms in all runs. -/
theorem size_entries_le {run : Run} (listed : run ∈ runs) (h : Term.Ascending run.terms) :
    run.entries.size ≤ (vocabulary runs).length := by
  have distinct : run.terms.Nodup := h.imp fun before same => by
    rw [same, Term.precedes_irrefl] at before
    cases before
  have inside : run.terms ⊆ vocabulary runs :=
    fun term found => mem_vocabulary.mpr ⟨run, listed, found⟩
  have le := (distinct.subperm inside).length_le
  rwa [Run.terms, List.length_map, Array.length_toList] at le

/-- An entry of a run has no more postings than its term has in all runs. -/
theorem length_postings_le {run : Run} {e : RunEntry} (listed : run ∈ runs)
    (h : Term.Ascending run.terms) (member : e ∈ run.entries.toList) :
    e.postings.length ≤ (mergedPostings runs e.term).length := by
  have here : (run.index, e) ∈ entriesOf runs e.term := by
    refine List.mem_filterMap.mpr ⟨run, listed, ?_⟩
    rw [Run.find?_of_mem h member]
    rfl
  obtain ⟨front, behind, split⟩ := List.append_of_mem here
  rw [length_mergedPostings, split, List.map_append, List.map_cons, total_append, total_cons]
  dsimp only
  omega

/-- The statistics of a term in all of some sound runs are those of its postings in all of them. -/
theorem mergedStatistics_eq
    (sound : ∀ run ∈ runs, ∀ e ∈ run.entries.toList, e.Sound layout)
    (short : (mergedPostings runs term).length < UInt32.size) (held : entriesOf runs term ≠ []) :
    mergedStatistics runs term = .ok (.ofPostings layout (mergedPostings runs term)) := by
  have shown : (entriesOf runs term).map (·.2.statistics) =
      ((entriesOf runs term).map (·.2.postings)).map (.ofPostings layout) := by
    rw [List.map_map]
    refine List.map_congr_left fun ⟨i, e⟩ member => ?_
    obtain ⟨run, listed, found, -⟩ := mem_entriesOf member
    exact (sound run listed e (Array.mem_toList_iff.mpr (Run.mem_of_find? found))).statistics_eq
  rw [mergedStatistics, shown]
  rw [mergedPostings, List.flatMap_def] at short ⊢
  cases entries : entriesOf runs term with
  | nil => exact absurd entries held
  | cons first rest =>
    rw [entries, List.map_cons, List.flatten_cons, List.length_append] at short
    rw [List.map_cons, List.map_cons, combineStatistics, List.flatten_cons]
    exact TermStatistics.foldlM_combine_ofPostings short

end IndexMerge
