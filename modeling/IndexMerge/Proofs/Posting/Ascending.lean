import IndexMerge.Posting.Layout

/-!
# Ascending numbers

The check that numbers ascend looks at neighbours only; by it every number is greater than all
before it (`isAscending_iff_pairwise`). It fails exactly if there is a first descent, up to which
the numbers ascend (`firstDescent_eq_none_iff`, `exists_of_firstDescent`).
-/

namespace IndexMerge

theorem isAscending_cons_cons {a b : UInt32} {rest : List UInt32} :
    isAscending (a :: b :: rest) = true ↔ a < b ∧ isAscending (b :: rest) = true := by
  rw [isAscending, Bool.and_eq_true, decide_eq_true_eq]

theorem isAscending_iff_pairwise {numbers : List UInt32} :
    isAscending numbers = true ↔ numbers.Pairwise (· < ·) := by
  induction numbers with
  | nil => simp [isAscending]
  | cons a rest ih =>
    cases rest with
    | nil => simp [isAscending]
    | cons b rest =>
      rw [isAscending_cons_cons, ih]
      constructor
      · rintro ⟨less, ascending⟩
        refine .cons (fun c member => ?_) ascending
        rcases List.mem_cons.mp member with rfl | member
        · exact less
        · exact UInt32.lt_trans less ((List.pairwise_cons.mp ascending).1 c member)
      · intro ascending
        exact ⟨(List.pairwise_cons.mp ascending).1 b (by simp), ascending.tail⟩

/-- There are at most as many ascending numbers as there are words. -/
theorem length_le_of_isAscending {numbers : List UInt32} (ascending : isAscending numbers = true) :
    numbers.length ≤ UInt32.size := by
  -- Each number leaves room only for those above it.
  have room : ∀ (numbers : List UInt32) (bound : Nat), bound ≤ UInt32.size →
      numbers.Pairwise (· < ·) → (∀ n ∈ numbers, bound ≤ n.toNat) →
      numbers.length + bound ≤ UInt32.size := by
    intro numbers
    induction numbers with
    | nil =>
      intro bound le _ _
      simpa using le
    | cons a rest ih =>
      intro bound _ pairwise above
      have ⟨less, pairwise⟩ := List.pairwise_cons.mp pairwise
      have here := above a (List.mem_cons_self ..)
      have fits := ih (a.toNat + 1) a.toNat_lt pairwise fun n member =>
        UInt32.lt_iff_toNat_lt.mp (less n member)
      rw [List.length_cons]
      omega
  exact room numbers 0 (Nat.zero_le _) (isAscending_iff_pairwise.mp ascending) fun _ _ =>
    Nat.zero_le _

/-- The first two neighbours of which the second is not greater. -/
def firstDescent : List UInt32 → Option (UInt32 × UInt32)
  | a :: b :: rest => if a < b then firstDescent (b :: rest) else some (a, b)
  | _ => none

theorem firstDescent_eq_none_iff {numbers : List UInt32} :
    firstDescent numbers = none ↔ isAscending numbers = true := by
  fun_induction firstDescent numbers with
  | case1 a b rest less ih => rw [ih, isAscending_cons_cons, and_iff_right less]
  | case2 a b rest notLess => simp [isAscending_cons_cons, notLess]
  | case3 numbers short =>
    rcases numbers with _ | ⟨a, _ | ⟨b, rest⟩⟩
    · simp [isAscending]
    · simp [isAscending]
    · exact absurd rfl (short a b rest)

/-- Numbers ascend up to their first descent. -/
theorem exists_of_firstDescent {numbers : List UInt32} {last next : UInt32}
    (descends : firstDescent numbers = some (last, next)) :
    ∃ front behind, numbers = front ++ last :: next :: behind ∧
      isAscending (front ++ [last]) = true ∧ next ≤ last := by
  fun_induction firstDescent numbers with
  | case1 a b rest less ih =>
    obtain ⟨front, behind, split, ascending, le⟩ := ih descends
    refine ⟨a :: front, behind, by rw [split]; rfl, ?_, le⟩
    cases front with
    | nil =>
      obtain rfl : b = last := (List.cons.inj split).1
      exact isAscending_cons_cons.mpr ⟨less, ascending⟩
    | cons c front =>
      obtain rfl : b = c := (List.cons.inj split).1
      exact isAscending_cons_cons.mpr ⟨less, ascending⟩
  | case2 a b rest notLess =>
    cases descends
    exact ⟨[], rest, rfl, rfl, UInt32.not_lt.mp notLess⟩
  | case3 => cases descends

/-- What is last before the first member and the rest is last before the rest, or the first member.
-/
theorem getLast?_cons_or {α : Type} (a : α) (rest : List α) (before : Option α) :
    (a :: rest).getLast?.or before = rest.getLast?.or (some a) := by
  rw [List.getLast?_cons]
  cases rest.getLast? <;> rfl

/-- Whether numbers ascend and are greater than the one before them, if there is one. -/
def isAscendingAfter (last : Option UInt32) (numbers : List UInt32) : Bool :=
  isAscending (last.toList ++ numbers)

theorem isAscendingAfter_nil (last : Option UInt32) : isAscendingAfter last [] = true := by
  cases last <;> rfl

theorem isAscendingAfter_cons {last : Option UInt32} {a : UInt32} {rest : List UInt32} :
    isAscendingAfter last (a :: rest) = true ↔
      last.filter (a ≤ ·) = none ∧ isAscendingAfter (some a) rest = true := by
  cases last with
  | none => simp [isAscendingAfter]
  | some last =>
    have less : (some last).filter (a ≤ ·) = none ↔ last < a := by
      simp [Option.filter_some, UInt32.not_le]
    rw [less]
    exact isAscending_cons_cons

end IndexMerge
