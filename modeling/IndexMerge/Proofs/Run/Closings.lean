import IndexMerge.Run.InMemory
import Mathlib.Logic.Function.Iterate

/-!
# How often a cursor was closed

All that is known of a cursor is what its calls do with it. That a cursor was closed so many times
means that it is what calls made of the cursor that was given, and that so many of them closed it
(`RunCursor.Became`). Only a call of `close` can be counted, so a lease that ends without one leaves
a cursor of which nothing can be said. What a cursor has that closing alone changes was changed just
so often (`Became.iterate`).
-/

namespace IndexMerge

namespace RunCursor

variable {C : Type} [RunCursor C] {c c' : C} {closings : Nat}

/-- A cursor is what calls made of another one, and so many of them closed it. Calls may fail. -/
inductive Became (c : C) : Nat → C → Prop
  | given : Became c 0 c
  | advance {closings : Nat} {c' : C} (h : Became c closings c') : Became c closings (advance c').2
  | openPostings {closings : Nat} {c' : C} (h : Became c closings c') :
    Became c closings (openPostings c')
  | nextPosting {closings : Nat} {c' : C} (h : Became c closings c') :
    Became c closings (nextPosting c').2
  | close {closings : Nat} {c' : C} (h : Became c closings c') :
    Became c (closings + 1) (close c').2

theorem Became.of_advance {c'' : C} {result : Except Error Unit} (h : Became c closings c')
    (advanced : RunCursor.advance c' = (result, c'')) : Became c closings c'' := by
  have moved := h.advance
  rwa [advanced] at moved

/-- What only closing changes was changed once by each call that closed the cursor. -/
theorem Became.iterate {α : Type} {f : C → α} {g : α → α}
    (advance : ∀ c, f (RunCursor.advance c).2 = f c)
    (openPostings : ∀ c, f (RunCursor.openPostings c) = f c)
    (nextPosting : ∀ c, f (RunCursor.nextPosting c).2 = f c)
    (close : ∀ c, f (RunCursor.close c).2 = g (f c)) (h : Became c closings c') :
    f c' = g^[closings] (f c) := by
  induction h with
  | given => rfl
  | advance _ ih => exact (advance _).trans ih
  | openPostings _ ih => exact (openPostings _).trans ih
  | nextPosting _ ih => exact (nextPosting _).trans ih
  | close _ ih => rw [close, ih, Function.iterate_succ_apply']

end RunCursor

namespace MemoryCursor

theorem isClosed_advance (c : MemoryCursor) : (advance c).2.isClosed = c.isClosed := by
  unfold advance
  split
  · rfl
  · split <;> rfl

theorem isClosed_nextPosting (c : MemoryCursor) : (nextPosting c).2.isClosed = c.isClosed := by
  unfold nextPosting
  split <;> rfl

/-- A cursor over a run in memory shows whether it was closed. -/
theorem isClosed_of_became {c c' : MemoryCursor} {closings : Nat}
    (h : RunCursor.Became c closings c') : c'.isClosed = (c.isClosed || closings != 0) := by
  have closed := h.iterate (g := fun _ => true) isClosed_advance (fun _ => rfl)
    isClosed_nextPosting (fun _ => rfl)
  cases closings with
  | zero => rw [closed, bne_self_eq_false, Bool.or_false, Function.iterate_zero_apply]
  | succ closings => rw [closed, Function.iterate_succ_apply']; simp

end MemoryCursor

end IndexMerge
