import IndexMerge.Proofs.Heap.Order

/-!
# Heaps of other members

Where members are replaced by others that come before one another as they did, a heap takes its
members in the same order (`pop_map`).
-/

namespace IndexMerge

namespace Heap

variable {α β : Type} {before : α → α → Bool} {before' : β → β → Bool} {f : α → β} {n : Nat}

/-- The heap with other members at the same places. -/
def map (f : α → β) (h : Heap before) : Heap before' := ⟨h.items.map f⟩

theorem map_swap (v : Vector α n) (i j : Nat) (hi : i < n) (hj : j < n) :
    (v.swap i j).map f = (v.map f).swap i j := by
  ext k hk
  simp only [Vector.getElem_map, Vector.getElem_swap]
  split
  · rfl
  · split <;> rfl

variable (same : ∀ a b, before' (f a) (f b) = before a b)

include same

theorem siftUp_map (v : Vector α n) (i : Fin n) :
    siftUp before' (v.map f) i = (siftUp before v i).map f := by
  fun_induction siftUp before v i with
  | case1 v i root => rw [siftUp, dif_pos root]
  | case2 v i nonzero parent rises ih =>
    rw [siftUp, dif_neg nonzero]
    dsimp only
    rw [← ih, map_swap, if_pos]
    simpa [same] using rises
  | case3 v i nonzero parent stays =>
    rw [siftUp, dif_neg nonzero]
    dsimp only
    rw [if_neg]
    simpa [same] using stays

theorem siftDown_map (v : Vector α n) (i : Fin n) : siftDown before' (v.map f) i =
    ((siftDown before v i).1.map f, (siftDown before v i).2) := by
  fun_induction siftDown before v i with
  | case1 v i inner left right less ih =>
    rw [siftDown, dif_pos inner]
    dsimp only
    rw [if_pos (by simpa [same] using less), ← ih, map_swap]
  | case2 v i inner left right notLess ih =>
    rw [siftDown, dif_pos inner]
    dsimp only
    rw [if_neg (by simpa [same] using notLess), ← ih, map_swap]
  | case3 v i inner last =>
    rw [siftDown, dif_neg inner, dif_pos last, map_swap]
  | case4 v i inner last =>
    rw [siftDown, dif_neg inner, dif_neg last]

omit same in
theorem peek?_map (h : Heap before) : (h.map f : Heap before').peek? = h.peek?.map f :=
  Array.getElem?_map

/-- Taking a member of the other heap takes what stands for the member that is taken. -/
theorem pop_map (h : Heap before) :
    (h.map f : Heap before').pop = h.pop.map fun taken => (f taken.1, taken.2.map f) := by
  rcases eq_empty_or_push h with rfl | ⟨n, rest, last, rfl⟩
  · simp [map, pop]
  · have popped := @pop_push _ before' _ (rest.map f) (f last)
    rw [Vector.toArray_map, ← Array.map_push] at popped
    rw [pop_push, map, popped]
    by_cases more : 0 < n
    · have sunk := siftDown_map same (rest.set 0 last) ⟨0, more⟩
      rw [Vector.map_set] at sunk
      rw [dif_pos more, dif_pos more, sunk]
      dsimp only
      rw [siftUp_map same, Vector.getElem_map]
      rfl
    · rw [dif_neg more, dif_neg more]
      rfl

end Heap

end IndexMerge
