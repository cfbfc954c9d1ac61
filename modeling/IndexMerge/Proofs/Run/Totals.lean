import IndexMerge.Proofs.Run.Statistics

/-!
# What statistics count

The sums in the statistics of a list of postings are words, but no list over different documents is
long enough for a sum to wrap (`counts_ofPostings`). Only the number of postings may, and just if
all documents there are have the term.
-/

namespace IndexMerge

theorem total_map_le {α : Type} {f : α → Nat} {bound : Nat} {list : List α}
    (le : ∀ a ∈ list, f a ≤ bound) : total (list.map f) ≤ list.length * bound := by
  induction list with
  | nil => exact Nat.zero_le _
  | cons a list ih =>
    have first := le a (List.mem_cons_self ..)
    have rest := ih fun b member => le b (List.mem_cons_of_mem a member)
    rw [List.map_cons, total_cons, List.length_cons, Nat.succ_mul]
    omega

/-- A sum of words that is not too great is the sum of the numbers. -/
theorem toNat_foldl_add {α : Type} (f : α → UInt64) {list : List α} {sum : UInt64}
    (short : sum.toNat + total (list.map fun a => (f a).toNat) < UInt64.size) :
    (list.foldl (fun sum a => sum + f a) sum).toNat =
      sum.toNat + total (list.map fun a => (f a).toNat) := by
  induction list generalizing sum with
  | nil => rfl
  | cons a list ih =>
    rw [List.map_cons, total_cons] at short ⊢
    have added : (sum + f a).toNat = sum.toNat + (f a).toNat := by
      rw [UInt64.toNat_add]
      exact Nat.mod_eq_of_lt (by change _ < UInt64.size; omega)
    rw [List.foldl_cons, ih (by omega), added, Nat.add_assoc]

namespace TermStatistics

/-- The statistics say of some postings how many there are, as long as this is a word, how often the
term occurs in all of them, and how often in each field. -/
structure Counts (layout : Layout) (postings : List Posting) (s : TermStatistics) : Prop where
  documents : postings.length < UInt32.size → s.documentFrequency.toNat = postings.length
  occurrences : s.frequency.toNat = total (postings.map (·.frequency.toNat))
  fields : s.fieldFrequencies.map UInt64.toNat = (List.range layout.fieldCount.toNat).map fun i =>
    total (postings.map fun p => (p.fieldFrequencies.getD i 0).toNat)
  unplaced : s.termId = none ∧ s.pointer = none

theorem getElem?_addFields (totals : List UInt64) (frequencies : List UInt32) (i : Nat) :
    (addFields totals frequencies)[i]? =
      totals[i]?.map (· + (frequencies.getD i 0).toUInt64) := by
  unfold addFields
  dsimp only
  rw [List.getElem?_zipWith]
  cases here : totals[i]? with
  | none => rfl
  | some sum =>
    have inside : i < totals.length := (List.getElem?_eq_some_iff.mp here).1
    by_cases given : i < frequencies.length
    · rw [List.getElem?_append_left (by rwa [List.length_map]), List.getElem?_map,
        List.getElem?_eq_getElem given, List.getD_eq_getElem?_getD, List.getElem?_eq_getElem given]
      rfl
    · have filled : (List.replicate (totals.length - frequencies.length) (0 : UInt64))[
          i - frequencies.length]? = some 0 := by
        rw [List.getElem?_replicate, if_pos (by omega)]
      rw [List.getElem?_append_right (by rw [List.length_map]; omega), List.length_map, filled,
        List.getD_eq_getElem?_getD, List.getElem?_eq_none (Nat.le_of_not_lt given)]
      rfl

theorem getElem?_foldl_addFields (postings : List Posting) (totals : List UInt64) (i : Nat) :
    (postings.foldl (fun totals p => addFields totals p.fieldFrequencies) totals)[i]? =
      totals[i]?.map fun sum =>
        postings.foldl (fun sum p => sum + (p.fieldFrequencies.getD i 0).toUInt64) sum := by
  induction postings generalizing totals with
  | nil => exact (Option.map_id' ..).symm
  | cons p postings ih =>
    rw [List.foldl_cons, ih, getElem?_addFields, Option.map_map]
    rfl

/-- The sum of words of 32 bits, one for each of different documents, is a word of 64 bits. -/
theorem toNat_sum {postings : List Posting} (count : postings.length ≤ UInt32.size)
    (part : Posting → UInt32) :
    (postings.foldl (fun sum p => sum + (part p).toUInt64) 0).toNat =
      total (postings.map fun p => (part p).toNat) := by
  have le : total (postings.map fun p => (part p).toNat) ≤
      postings.length * (UInt32.size - 1) :=
    total_map_le fun p _ => Nat.le_sub_one_of_lt (part p).toNat_lt
  have bound : postings.length * (UInt32.size - 1) ≤ UInt32.size * (UInt32.size - 1) :=
    Nat.mul_le_mul_right _ count
  have short : UInt32.size * (UInt32.size - 1) < UInt64.size := by decide
  have sum := @toNat_foldl_add Posting (fun p => (part p).toUInt64) postings 0
  simp only [UInt32.toNat_toUInt64] at sum
  rw [sum (by rw [UInt64.toNat_zero]; omega), UInt64.toNat_zero, Nat.zero_add]

/-- The statistics of postings over different documents count them. -/
theorem counts_ofPostings (layout : Layout) {postings : List Posting}
    (count : postings.length ≤ UInt32.size) :
    (ofPostings layout postings).Counts layout postings where
  documents := documentFrequency_ofPostings
  occurrences := toNat_sum count Posting.frequency
  fields := by
    refine List.ext_getElem? fun i => ?_
    have field := getElem?_foldl_addFields postings
      (List.replicate layout.fieldCount.toNat 0) i
    rw [List.getElem?_map, List.getElem?_map, ofPostings, field]
    by_cases inside : i < layout.fieldCount.toNat
    · rw [List.getElem?_replicate, if_pos inside, List.getElem?_range inside]
      exact congrArg some (toNat_sum count fun p => p.fieldFrequencies.getD i 0)
    · rw [List.getElem?_replicate, if_neg inside,
        List.getElem?_eq_none (by rw [List.length_range]; exact Nat.le_of_not_lt inside)]
      rfl
  unplaced := ⟨rfl, rfl⟩

end TermStatistics

end IndexMerge
