/-!
# Heaps

A collection from which a least member is taken, kept as a binary tree in level order: the members
behind position `i` are at `2 * i + 1` and `2 * i + 2`. Taking the root moves the last member into
its place, lets it sink to a leaf by the lesser child (the right one if the left is not strictly
less) and rise from there as far as it comes strictly before its parent. The order of the members
in the tree is part of a heap's value; `items_push` and `items_pop` say what is kept besides.
-/

namespace IndexMerge

/-- A heap ordered by `before`. -/
structure Heap {α : Type} (before : α → α → Bool) where
  items : Array α

namespace Heap

variable {α : Type} {before : α → α → Bool} {n : Nat}

/-- A heap without members. -/
def empty : Heap before := ⟨#[]⟩

/-- The number of members. -/
def size (h : Heap before) : Nat := h.items.size

/-- The members in level order. -/
def toList (h : Heap before) : List α := h.items.toList

@[simp] theorem toList_empty : (empty : Heap before).toList = [] := rfl

/-- A least member. -/
def peek? (h : Heap before) : Option α := h.items[0]?

/-- Lets the member at a position rise while it comes strictly before its parent. -/
def siftUp (before : α → α → Bool) (v : Vector α n) (i : Fin n) : Vector α n :=
  if h : i.val = 0 then v
  else
    let parent : Fin n := ⟨(i.val - 1) / 2, by omega⟩
    if before v[i] v[parent] then siftUp before (v.swap parent i) parent else v
termination_by i.val
decreasing_by exact Nat.lt_of_le_of_lt (Nat.div_le_self _ 2) (by omega)

/-- Lets the member at a position sink to a leaf. Gives the position that it reaches. -/
def siftDown (before : α → α → Bool) (v : Vector α n) (i : Fin n) : Vector α n × Fin n :=
  if hr : 2 * i.val + 2 < n then
    let left : Fin n := ⟨2 * i.val + 1, by omega⟩
    let right : Fin n := ⟨2 * i.val + 2, hr⟩
    if before v[left] v[right] then siftDown before (v.swap i left) left
    else siftDown before (v.swap i right) right
  else if hl : 2 * i.val + 1 < n then (v.swap i (2 * i.val + 1), ⟨2 * i.val + 1, hl⟩)
  else (v, i)
termination_by n - i.val
decreasing_by all_goals omega

/-- Adds a member. -/
def push (h : Heap before) (a : α) : Heap before :=
  ⟨(siftUp before (h.items.push a).toVector ⟨h.items.size, by simp⟩).toArray⟩

/-- Takes a least member. -/
def pop (h : Heap before) : Option (α × Heap before) :=
  match h.items.back? with
  | none => none
  | some last =>
    let rest := h.items.pop
    if hr : 0 < rest.size then
      let (v, i) := siftDown before (rest.toVector.set 0 last) ⟨0, hr⟩
      some (rest[0], ⟨(siftUp before v i).toArray⟩)
    else some (last, ⟨rest⟩)

theorem siftUp_perm (v : Vector α n) (i : Fin n) :
    (siftUp before v i).toList.Perm v.toList := by
  fun_induction siftUp before v i with
  | case1 => exact .refl _
  | case2 v i h parent _ ih => exact ih.trans (Vector.swap_perm _ _).toList
  | case3 => exact .refl _

theorem siftDown_perm (v : Vector α n) (i : Fin n) :
    (siftDown before v i).1.toList.Perm v.toList := by
  fun_induction siftDown before v i with
  | case1 v i _ left right _ ih => exact ih.trans (Vector.swap_perm _ _).toList
  | case2 v i _ left right _ ih => exact ih.trans (Vector.swap_perm _ _).toList
  | case3 v i _ hl => exact (Vector.swap_perm i.isLt hl).toList
  | case4 => exact .refl _

/-- Adding a member keeps the others. -/
theorem items_push (h : Heap before) (a : α) : (h.push a).toList.Perm (a :: h.toList) := by
  refine (siftUp_perm _ _).trans ?_
  simp [toList]

/-- Taking a member keeps the others. -/
theorem items_pop {h h' : Heap before} {a : α} (taken : h.pop = some (a, h')) :
    (a :: h'.toList).Perm h.toList := by
  obtain ⟨items⟩ := h
  unfold pop at taken
  split at taken
  · cases taken
  · rename_i last found
    obtain ⟨rest, rfl⟩ := Array.back?_eq_some_iff.mp found
    simp only [Array.pop_push] at taken
    split at taken
    · rename_i hr
      cases taken
      refine (List.Perm.cons _ ((siftUp_perm _ _).trans (siftDown_perm _ _))).trans ?_
      obtain ⟨_ | ⟨root, tail⟩⟩ := rest
      · exact absurd hr (Nat.lt_irrefl 0)
      · have front : (root :: (tail ++ [last])).dropLast = root :: tail := by
          rw [← List.cons_append, List.dropLast_concat]
        simpa [toList, front] using (List.perm_append_singleton last tail).symm
    · cases taken
      obtain ⟨_ | _⟩ := rest
      · exact .refl _
      · simp at *

theorem size_pop {h h' : Heap before} {a : α} (taken : h.pop = some (a, h')) :
    h'.size < h.size := by
  have := (items_pop taken).length_eq
  simp only [toList, List.length_cons, Array.length_toList] at this
  simp only [size]
  omega

end Heap

end IndexMerge
