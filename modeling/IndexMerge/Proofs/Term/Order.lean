import IndexMerge.Term

/-!
# The order of terms

Coming strictly before is a strict total order on terms, and the order of scheduled runs compares
terms first and run numbers behind them.
-/

namespace IndexMerge

namespace Term

variable {a b c : Term}

theorem precedes_iff : a.precedes b = true ↔ compare a b = .lt := by
  rw [precedes, Ordering.isLT_iff_eq_lt]

@[simp] theorem precedes_irrefl (a : Term) : a.precedes a = false := by
  simp [precedes, Std.ReflOrd.compare_self]

theorem precedes_trans (first : a.precedes b = true) (second : b.precedes c = true) :
    a.precedes c = true :=
  precedes_iff.mpr (Std.TransCmp.lt_trans (precedes_iff.mp first) (precedes_iff.mp second))

theorem precedes_asymm (h : a.precedes b = true) : b.precedes a = false := by
  cases back : b.precedes a with
  | false => rfl
  | true => rw [← precedes_trans h back, precedes_irrefl]

theorem precedes_or_eq (a b : Term) : a.precedes b = true ∨ a = b ∨ b.precedes a = true := by
  rcases compared : compare a b
  · exact .inl (precedes_iff.mpr compared)
  · exact .inr (.inl (Std.LawfulEqCmp.eq_of_compare compared))
  · exact .inr (.inr (precedes_iff.mpr (Std.OrientedCmp.lt_of_gt compared)))

/-- Of two terms that are not one, each that does not come behind comes before. -/
theorem precedes_of_not (h : b.precedes a = false) (differ : a ≠ b) : a.precedes b = true := by
  rcases precedes_or_eq a b with before | same | behind
  · exact before
  · exact absurd same differ
  · rw [h] at behind
    cases behind

end Term

theorem isLT_compareRunKeys {termA termB : Term} {runA runB : Nat} :
    (compareRunKeys termA runA termB runB).isLT = true ↔
      termA.precedes termB = true ∨ termA = termB ∧ runA < runB := by
  unfold compareRunKeys Term.precedes
  rcases compared : compare termA termB
  · simp
  · have same := Std.LawfulEqCmp.eq_of_compare compared
    simp [same, Nat.compare_eq_lt]
  · have differ : termA ≠ termB := fun same => by
      simp [same, Std.ReflOrd.compare_self] at compared
    simp [differ]

end IndexMerge
