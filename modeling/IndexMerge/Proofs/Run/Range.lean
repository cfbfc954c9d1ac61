import IndexMerge.Proofs.Posting.Ascending
import IndexMerge.Proofs.Run.Built
import IndexMerge.Run.Header

/-!
# Document ranges

The document range of a run holds the documents of all its postings (`docRange_bounds`), and it is
missing only if the run has no entries. It begins and ends with documents that have postings
(`mem_of_docRange`).
-/

namespace IndexMerge

section Extremes

variable {a x : UInt32} {numbers : List UInt32}

theorem foldl_min_le (member : x ∈ a :: numbers) : numbers.foldl min a ≤ x := by
  induction numbers generalizing a x with
  | nil =>
    obtain rfl := List.mem_singleton.mp member
    exact UInt32.le_refl x
  | cons b numbers ih =>
    rw [List.foldl_cons]
    rcases List.mem_cons.mp member with rfl | member
    · exact UInt32.le_trans (ih (List.mem_cons_self ..)) Std.min_le_left
    · rcases List.mem_cons.mp member with rfl | member
      · exact UInt32.le_trans (ih (List.mem_cons_self ..)) Std.min_le_right
      · exact ih (List.mem_cons_of_mem _ member)

theorem le_max_both (a b : UInt32) : a ≤ max a b ∧ b ≤ max a b := by
  show a ≤ (if a ≤ b then b else a) ∧ b ≤ (if a ≤ b then b else a)
  by_cases le : a ≤ b
  · rw [if_pos le]
    exact ⟨le, UInt32.le_refl b⟩
  · rw [if_neg le]
    exact ⟨UInt32.le_refl a, UInt32.le_of_lt (UInt32.not_le.mp le)⟩

theorem le_foldl_max (member : x ∈ a :: numbers) : x ≤ numbers.foldl max a := by
  induction numbers generalizing a x with
  | nil =>
    obtain rfl := List.mem_singleton.mp member
    exact UInt32.le_refl x
  | cons b numbers ih =>
    rw [List.foldl_cons]
    rcases List.mem_cons.mp member with rfl | member
    · exact UInt32.le_trans (le_max_both _ b).1 (ih (List.mem_cons_self ..))
    · rcases List.mem_cons.mp member with rfl | member
      · exact UInt32.le_trans (le_max_both a _).2 (ih (List.mem_cons_self ..))
      · exact ih (List.mem_cons_of_mem _ member)

/-- What takes one of two numbers takes one of several. -/
theorem foldl_mem {choose : UInt32 → UInt32 → UInt32}
    (one : ∀ a b, choose a b = a ∨ choose a b = b) (a : UInt32) (numbers : List UInt32) :
    numbers.foldl choose a ∈ a :: numbers := by
  induction numbers generalizing a with
  | nil => simp
  | cons b numbers ih =>
    rw [List.foldl_cons]
    have found := ih (choose a b)
    rcases one a b with same | same
    · rw [same] at found ⊢
      rcases List.mem_cons.mp found with first | behind
      · simp [first]
      · simp [behind]
    · rw [same] at found ⊢
      apply List.mem_cons_of_mem
      exact found

theorem min_choice (a b : UInt32) : min a b = a ∨ min a b = b := by
  show (if a ≤ b then a else b) = a ∨ (if a ≤ b then a else b) = b
  by_cases le : a ≤ b
  · simp [le]
  · simp [le]

theorem max_choice (a b : UInt32) : max a b = a ∨ max a b = b := by
  show (if a ≤ b then b else a) = a ∨ (if a ≤ b then b else a) = b
  by_cases le : a ≤ b
  · simp [le]
  · simp [le]

end Extremes

variable {layout : Layout} {run : Run} {e : RunEntry} {p : Posting}

/-- The documents of an entry lie between its first and its last one. -/
theorem RunEntry.Sound.bounds (sound : e.Sound layout) (member : p ∈ e.postings) :
    ∃ first last, e.postings.head? = some first ∧ e.postings.getLast? = some last ∧
      first.docId ≤ p.docId ∧ p.docId ≤ last.docId := by
  have ascending := List.pairwise_map.mp (isAscending_iff_pairwise.mp sound.ascending)
  obtain ⟨front, behind, split⟩ := List.append_of_mem member
  rw [split] at ascending ⊢
  have ⟨_, tail, before⟩ := List.pairwise_append.mp ascending
  refine ⟨(front ++ [p]).head (by simp), (p :: behind).getLast (by simp), ?_, ?_, ?_, ?_⟩
  · cases front <;> simp
  · rw [List.getLast?_append, List.getLast?_eq_some_getLast (by simp)]
    rfl
  · cases front with
    | nil => exact UInt32.le_refl _
    | cons q front => exact UInt32.le_of_lt (before q (by simp) p (by simp))
  · rcases List.mem_cons.mp (List.getLast_mem (List.cons_ne_nil p behind)) with same | later
    · rw [same]
      exact UInt32.le_refl _
    · exact UInt32.le_of_lt ((List.pairwise_cons.mp tail).1 _ later)

namespace Run

theorem docRange_bounds (sound : ∀ e ∈ run.entries.toList, e.Sound layout)
    (listed : e ∈ run.entries.toList) (member : p ∈ e.postings) :
    ∃ range, run.docRange = some range ∧ range.1 ≤ p.docId ∧ p.docId ≤ range.2 := by
  obtain ⟨first, last, head, tail, low, high⟩ := (sound e listed).bounds member
  have firsts : first.docId ∈
      (run.entries.toList.filterMap (·.postings.head?)).map (·.docId) :=
    List.mem_map_of_mem (List.mem_filterMap.mpr ⟨e, listed, head⟩)
  have lasts : last.docId ∈
      (run.entries.toList.filterMap (·.postings.getLast?)).map (·.docId) :=
    List.mem_map_of_mem (List.mem_filterMap.mpr ⟨e, listed, tail⟩)
  unfold docRange
  dsimp only
  generalize (run.entries.toList.filterMap (·.postings.head?)).map (·.docId) = starts at firsts
  generalize (run.entries.toList.filterMap (·.postings.getLast?)).map (·.docId) = ends at lasts
  cases starts with
  | nil => cases firsts
  | cons a starts =>
    cases ends with
    | nil => cases lasts
    | cons b ends =>
      exact ⟨_, rfl, UInt32.le_trans (foldl_min_le firsts) low,
        UInt32.le_trans high (le_foldl_max lasts)⟩

theorem docRange_isSome (sound : ∀ e ∈ run.entries.toList, e.Sound layout)
    (listed : e ∈ run.entries.toList) : ∃ range, run.docRange = some range ∧ range.1 ≤ range.2 := by
  obtain ⟨p, postings, split⟩ := List.exists_cons_of_ne_nil (sound e listed).nonempty
  obtain ⟨range, found, low, high⟩ :=
    docRange_bounds sound listed (p := p) (by rw [split]; exact List.mem_cons_self ..)
  exact ⟨range, found, UInt32.le_trans low high⟩

/-- The document range begins and ends with documents of the run. -/
theorem mem_of_docRange {range : UInt32 × UInt32} (found : run.docRange = some range) :
    (∃ e ∈ run.entries.toList, ∃ p ∈ e.postings, p.docId = range.1) ∧
      ∃ e ∈ run.entries.toList, ∃ p ∈ e.postings, p.docId = range.2 := by
  unfold docRange at found
  dsimp only at found
  split at found
  · rename_i first firsts last lasts starts ends
    cases found
    constructor
    · have member := foldl_mem min_choice first firsts
      rw [← starts] at member
      obtain ⟨p, listed, same⟩ := List.mem_map.mp member
      obtain ⟨e, here, head⟩ := List.mem_filterMap.mp listed
      exact ⟨e, here, p, List.mem_of_head? head, same⟩
    · have member := foldl_mem max_choice last lasts
      rw [← ends] at member
      obtain ⟨p, listed, same⟩ := List.mem_map.mp member
      obtain ⟨e, here, tail⟩ := List.mem_filterMap.mp listed
      exact ⟨e, here, p, List.mem_of_getLast? tail, same⟩
  · cases found

theorem docRange_nil (ended : run.entries.toList = []) : run.docRange = none := by
  unfold docRange
  rw [ended]
  rfl

end Run

end IndexMerge
