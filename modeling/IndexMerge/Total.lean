/-!
# Totals

The sum of a list of numbers. Measures of collections are totals of the measures of their members,
which do not depend on the order of the members.
-/

namespace IndexMerge

/-- The sum of numbers. -/
def total : List Nat → Nat
  | [] => 0
  | n :: rest => n + total rest

@[simp] theorem total_nil : total [] = 0 := rfl

@[simp] theorem total_cons (n : Nat) (rest : List Nat) : total (n :: rest) = n + total rest := rfl

@[simp] theorem total_append (a b : List Nat) : total (a ++ b) = total a + total b := by
  induction a with
  | nil => simp
  | cons n a ih => simp [ih, Nat.add_assoc]

theorem total_eq_zero {numbers : List Nat} (h : ∀ n ∈ numbers, n = 0) : total numbers = 0 := by
  induction numbers with
  | nil => rfl
  | cons n rest ih =>
    rw [total_cons, h n (by simp), ih fun m member => h m (List.mem_cons_of_mem n member)]

theorem total_perm {a b : List Nat} (h : a.Perm b) : total a = total b := by
  induction h with
  | nil => rfl
  | cons n _ ih => exact congrArg (n + ·) ih
  | swap m n rest => exact Nat.add_left_comm n m (total rest)
  | trans _ _ first second => exact first.trans second

end IndexMerge
