import IndexMerge.Merge.Heap

/-!
# The order of a heap

A heap is ordered if no member comes strictly before its parent. Adding and taking members keep
that (`isOrdered_push`, `isOrdered_pop`), and then no member comes before the one that is taken
(`least_pop`). Between, the order holds everywhere but around one position: `UpOrdered` while a
member rises there, `DownOrdered` while it sinks.
-/

namespace IndexMerge

/-- What an order has to be like for a heap: of two members one comes no later than the other, and
coming no later is passed on. -/
structure HeapOrder {α : Type} (before : α → α → Bool) : Prop where
  total : ∀ a b, before a b = true → before b a = false
  trans : ∀ a b c, before b a = false → before c b = false → before c a = false

namespace Heap

variable {α : Type} {before : α → α → Bool} {n : Nat}

/-- No member comes strictly before its parent. -/
def Ordered (before : α → α → Bool) (v : Vector α n) : Prop :=
  ∀ k (hk : k < n), k ≠ 0 → before v[k] v[(k - 1) / 2] = false

/-- The order while the member at a position rises: only that member may come before its parent,
and those behind it do not come before that parent. -/
structure UpOrdered (before : α → α → Bool) (v : Vector α n) (i : Nat) : Prop where
  others : ∀ k (hk : k < n), k ≠ 0 → k ≠ i → before v[k] v[(k - 1) / 2] = false
  behind : ∀ k (hk : k < n), k ≠ 0 → (k - 1) / 2 = i → i ≠ 0 →
    before v[k] v[((k - 1) / 2 - 1) / 2] = false

/-- The order while the member at a position sinks: it is not compared with its parent or with
those behind it, but these do not come before that parent. -/
structure DownOrdered (before : α → α → Bool) (v : Vector α n) (i : Nat) : Prop where
  others : ∀ k (hk : k < n), k ≠ 0 → k ≠ i → (k - 1) / 2 ≠ i →
    before v[k] v[(k - 1) / 2] = false
  behind : ∀ k (hk : k < n), k ≠ 0 → (k - 1) / 2 = i → i ≠ 0 →
    before v[k] v[((k - 1) / 2 - 1) / 2] = false

theorem UpOrdered.swap (order : HeapOrder before) {v : Vector α n} {i : Nat} (hi : i < n)
    (h : UpOrdered before v i) (positive : i ≠ 0) (rises : before v[i] v[(i - 1) / 2] = true) :
    UpOrdered before (v.swap ((i - 1) / 2) i) ((i - 1) / 2) := by
  have above := order.total _ _ rises
  refine ⟨fun k hk nonzero other => ?_, fun k hk nonzero child positive' => ?_⟩
  · simp only [Vector.getElem_swap]
    by_cases same : k = i
    · subst same
      rw [if_neg other, if_pos rfl, if_pos rfl]
      exact above
    · rw [if_neg other, if_neg same]
      by_cases sibling : (k - 1) / 2 = (i - 1) / 2
      · rw [if_pos sibling]
        have kept := h.others k hk nonzero same
        simp only [sibling] at kept
        exact order.trans _ _ _ above kept
      · rw [if_neg sibling]
        by_cases child : (k - 1) / 2 = i
        · rw [if_pos child]
          have kept := h.behind k hk nonzero child positive
          simpa only [child] using kept
        · rw [if_neg child]
          exact h.others k hk nonzero same
  · simp only [Vector.getElem_swap]
    have up : ((k - 1) / 2 - 1) / 2 ≠ (i - 1) / 2 := by omega
    have up' : ((k - 1) / 2 - 1) / 2 ≠ i := by omega
    have parent := h.others ((i - 1) / 2) (by omega) positive' (by omega)
    rw [if_neg up, if_neg up', if_neg (by omega : k ≠ (i - 1) / 2)]
    by_cases same : k = i
    · subst same
      rw [if_pos rfl]
      exact parent
    · rw [if_neg same]
      have kept := h.others k hk nonzero same
      simp only [child] at kept ⊢
      exact order.trans _ _ _ parent kept

/-- A member that has risen as far as it can leaves the whole in order. -/
theorem ordered_siftUp (order : HeapOrder before) (v : Vector α n) (i : Fin n)
    (h : UpOrdered before v i) : Ordered before (siftUp before v i) := by
  fun_induction siftUp before v i with
  | case1 v i zero =>
    intro k hk nonzero
    exact h.others k hk nonzero (fun same => nonzero (same.trans zero))
  | case2 v i positive parent rises ih => exact ih (h.swap order i.isLt positive rises)
  | case3 v i positive parent stays =>
    intro k hk nonzero
    by_cases same : k = i
    · simp only [same]
      exact Bool.eq_false_iff.mpr stays
    · exact h.others k hk nonzero same

/-- A member that changes places with the lesser of those behind it is still the only one that may
be out of order. -/
theorem DownOrdered.swap {v : Vector α n} {i c : Nat} (hi : i < n) (hc : c < n)
    (h : DownOrdered before v i) (nonzero : c ≠ 0) (child : (c - 1) / 2 = i)
    (lesser : ∀ k (hk : k < n), k ≠ 0 → (k - 1) / 2 = i → k ≠ c → before v[k] v[c] = false) :
    DownOrdered before (v.swap i c) c := by
  refine ⟨fun k hk nonzero' other apart => ?_, fun k hk nonzero' below _ => ?_⟩
  · simp only [Vector.getElem_swap]
    rw [if_neg other, if_neg apart]
    by_cases same : k = i
    · subst same
      rw [if_pos rfl, if_neg (by omega : (k - 1) / 2 ≠ k)]
      have kept := h.behind c hc nonzero child (by omega)
      simpa only [child] using kept
    · rw [if_neg same]
      by_cases sibling : (k - 1) / 2 = i
      · rw [if_pos sibling]
        exact lesser k hk nonzero' sibling other
      · rw [if_neg sibling]
        exact h.others k hk nonzero' same sibling
  · simp only [Vector.getElem_swap]
    have kept := h.others k hk nonzero' (by omega) (by omega)
    simp only [below, child] at kept ⊢
    rw [if_neg (by omega : k ≠ i), if_neg (by omega : k ≠ c), if_pos trivial]
    exact kept

/-- A member that has sunk to a leaf has nothing behind it and may rise again. -/
theorem DownOrdered.up {v : Vector α n} {i : Nat} (h : DownOrdered before v i)
    (leaf : n ≤ 2 * i + 1) : UpOrdered before v i :=
  ⟨fun k hk nonzero other => h.others k hk nonzero other (by omega),
    fun k hk nonzero child positive => h.behind k hk nonzero child positive⟩

theorem upOrdered_siftDown (order : HeapOrder before) (v : Vector α n) (i : Fin n)
    (h : DownOrdered before v i) :
    UpOrdered before (siftDown before v i).1 (siftDown before v i).2 := by
  fun_induction siftDown before v i with
  | case1 v i hr left right less ih =>
    refine ih (h.swap i.isLt left.isLt (Nat.succ_ne_zero _) (by simp only [left]; omega) ?_)
    intro k hk nonzero child other
    have same : k = right.val := by simp only [left, right] at *; omega
    subst same
    exact order.total _ _ less
  | case2 v i hr left right notLess ih =>
    refine ih (h.swap i.isLt right.isLt (Nat.succ_ne_zero _) (by simp only [right]; omega) ?_)
    intro k hk nonzero child other
    have same : k = left.val := by simp only [left, right] at *; omega
    subst same
    exact Bool.eq_false_iff.mpr notLess
  | case3 v i hr hl =>
    refine (h.swap i.isLt hl (Nat.succ_ne_zero _) (by omega) ?_).up (by omega)
    intro k hk nonzero child other
    omega
  | case4 v i hr hl => exact h.up (by omega)

theorem least_ordered (order : HeapOrder before) {v : Vector α n} (h : Ordered before v) (k : Nat)
    (hk : k < n) : before v[k] v[0] = false := by
  induction k using Nat.strongRecOn with
  | ind k ih =>
    by_cases zero : k = 0
    · subst zero
      cases same : before v[0] v[0] with
      | false => rfl
      | true => exact same.symm.trans (order.total _ _ same)
    · exact order.trans _ _ _ (ih ((k - 1) / 2) (by omega) (by omega)) (h k hk zero)

/-- No member of a heap comes strictly before its parent. -/
def IsOrdered (h : Heap before) : Prop := Ordered before h.items.toVector

theorem isOrdered_empty : (empty : Heap before).IsOrdered :=
  fun _ hk => absurd hk (Nat.not_lt_zero _)

theorem isOrdered_push (order : HeapOrder before) {h : Heap before} (ordered : h.IsOrdered)
    (a : α) : (h.push a).IsOrdered := by
  have risen := ordered_siftUp order (h.items.push a).toVector ⟨h.items.size, by simp⟩
    ⟨fun k hk nonzero other => ?_, fun k hk nonzero child _ => ?_⟩
  · intro k hk nonzero
    simpa [push] using risen k (by simpa [push] using hk) nonzero
  · have old : k < h.items.size := by
      rw [Array.size_push] at hk
      exact Nat.lt_of_le_of_ne (Nat.le_of_lt_succ hk) other
    have kept := ordered k old nonzero
    simp only [Vector.getElem_mk] at kept ⊢
    rwa [Array.getElem_push_lt old, Array.getElem_push_lt (by omega)]
  · rw [Array.size_push] at hk
    simp only at child
    omega

/-- Taking a member moves the last one to the root, from where it sinks and rises. -/
theorem pop_push (rest : Vector α n) (last : α) : (⟨rest.toArray.push last⟩ : Heap before).pop =
    if hr : 0 < n then
      let (v, i) := siftDown before (rest.set 0 last) ⟨0, hr⟩
      some (rest[0], ⟨(siftUp before v i).toArray⟩)
    else some (last, ⟨rest.toArray⟩) := by
  obtain ⟨rest, rfl⟩ := rest
  unfold pop
  rw [Array.back?_push]
  dsimp only
  generalize shorter : (rest.push last).pop = rest'
  rw [Array.pop_push] at shorter
  subst shorter
  rfl

/-- A heap without members, or one with a last member. -/
theorem eq_empty_or_push (h : Heap before) :
    h = ⟨#[]⟩ ∨ ∃ (n : Nat) (rest : Vector α n) (last : α), h = ⟨rest.toArray.push last⟩ := by
  obtain ⟨items⟩ := h
  cases found : items.back? with
  | none => exact .inl (congrArg Heap.mk (Array.back?_eq_none_iff.mp found))
  | some last =>
    obtain ⟨rest, rfl⟩ := Array.back?_eq_some_iff.mp found
    exact .inr ⟨_, rest.toVector, last, rfl⟩

/-- The last member may be anywhere when it takes the place of the root. -/
theorem downOrdered_set {rest : Array α} {last : α} (hr : 0 < rest.size)
    (ordered : Ordered before (rest.push last).toVector) :
    DownOrdered before (rest.toVector.set 0 last) 0 := by
  refine ⟨fun k hk nonzero _ below => ?_, fun _ _ _ _ positive => absurd rfl positive⟩
  have kept := ordered k (by rw [Array.size_push]; omega) nonzero
  rw [Vector.getElem_set_ne _ _ (Ne.symm nonzero), Vector.getElem_set_ne _ _ (Ne.symm below)]
  simp only [Vector.getElem_mk] at kept ⊢
  rwa [Array.getElem_push_lt hk, Array.getElem_push_lt (by omega)] at kept

/-- Taking a member keeps the order, and no member comes before the one that is taken. -/
theorem isOrdered_pop (order : HeapOrder before) {h h' : Heap before} {a : α}
    (ordered : h.IsOrdered) (taken : h.pop = some (a, h')) :
    h'.IsOrdered ∧ ∀ b ∈ h.toList, before b a = false := by
  have least : ∀ root, h.items[0]? = some root → ∀ b ∈ h.toList, before b root = false := by
    intro root found b member
    obtain ⟨k, hk, rfl⟩ := List.mem_iff_getElem.mp member
    obtain ⟨_, rfl⟩ := Array.getElem?_eq_some_iff.mp found
    exact least_ordered order ordered k hk
  rcases eq_empty_or_push h with rfl | ⟨_, ⟨rest, rfl⟩, last, rfl⟩
  · cases taken
  · rw [pop_push] at taken
    split at taken
    · rename_i hr
      cases taken
      have sunk := upOrdered_siftDown order _ ⟨0, hr⟩ (downOrdered_set hr ordered)
      have risen := ordered_siftUp order _ _ sunk
      exact ⟨fun k hk nonzero => risen k (by simpa using hk) nonzero,
        least _ (Array.getElem?_push_lt hr)⟩
    · rename_i hr
      cases taken
      have none : rest = #[] := Array.eq_empty_of_size_eq_zero (by omega)
      subst none
      exact ⟨fun k hk => absurd hk (Nat.not_lt_zero _), least _ (by simp)⟩

/-- The member that is taken is the one at the root. -/
theorem peek?_of_pop {h h' : Heap before} {a : α} (taken : h.pop = some (a, h')) :
    h.peek? = some a := by
  rcases eq_empty_or_push h with rfl | ⟨_, ⟨rest, rfl⟩, last, rfl⟩
  · cases taken
  · rw [pop_push] at taken
    split at taken
    · rename_i hr
      cases taken
      exact Array.getElem?_push_lt hr
    · rename_i hr
      cases taken
      have none : rest = #[] := Array.eq_empty_of_size_eq_zero (by omega)
      subst none
      rfl

theorem toList_of_pop_eq_none {h : Heap before} (none : h.pop = none) : h.toList = [] := by
  rcases eq_empty_or_push h with rfl | ⟨_, ⟨rest, rfl⟩, last, rfl⟩
  · rfl
  · rw [pop_push] at none
    split at none <;> cases none

theorem pop_eq_none_iff {h : Heap before} : h.pop = none ↔ h.toList = [] := by
  refine ⟨toList_of_pop_eq_none, fun empty => ?_⟩
  obtain ⟨items⟩ := h
  obtain rfl : items = #[] := Array.toList_eq_nil_iff.mp empty
  rfl

end Heap

end IndexMerge
