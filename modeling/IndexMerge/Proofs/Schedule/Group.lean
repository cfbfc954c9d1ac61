import IndexMerge.Merge.Schedule
import IndexMerge.Proofs.Heap.Order
import IndexMerge.Proofs.Term.Order

/-!
# Groups

The group that is taken from a schedule holds the cursors on the least term and no others, in the
order of their runs, and the cursors left behind stand on greater terms (`group_popGroup`).
-/

namespace IndexMerge

variable {C : Type} [RunCursor C]

namespace Lease

theorem before_iff {a b : Lease C} : a.before b = true ↔
    a.term.precedes b.term = true ∨ a.term = b.term ∧ a.runIndex < b.runIndex :=
  isLT_compareRunKeys

/-- A lease that does not come before another has no lesser term, and for one term no lesser run. -/
theorem not_before_iff {a b : Lease C} : b.before a = false ↔
    a.term.precedes b.term = true ∨ a.term = b.term ∧ a.runIndex ≤ b.runIndex := by
  rw [Bool.eq_false_iff, ne_eq, before_iff]
  constructor
  · intro h
    rcases Term.precedes_or_eq a.term b.term with before | same | behind
    · exact .inl before
    · exact .inr ⟨same, Nat.le_of_not_lt fun less => h (.inr ⟨same.symm, less⟩)⟩
    · exact absurd (.inl behind) h
  · rintro (before | ⟨same, le⟩) (back | ⟨same', less⟩)
    · rw [Term.precedes_asymm before] at back
      cases back
    · rw [same', Term.precedes_irrefl] at before
      cases before
    · rw [same, Term.precedes_irrefl] at back
      cases back
    · omega

theorem heapOrder : HeapOrder (before (C := C)) where
  total a b h := by
    rw [not_before_iff]
    rcases before_iff.mp h with before | ⟨same, less⟩
    · exact .inl before
    · exact .inr ⟨same, Nat.le_of_lt less⟩
  trans a b c first second := by
    rw [not_before_iff] at *
    rcases first with first | ⟨same, le⟩
    · rcases second with second | ⟨same', _⟩
      · exact .inl (Term.precedes_trans first second)
      · exact .inl (same' ▸ first)
    · rcases second with second | ⟨same', le'⟩
      · exact .inl (same ▸ second)
      · exact .inr ⟨same.trans same', Nat.le_trans le le'⟩

end Lease

namespace Schedule

/-- The cursors on a term, in the order of their runs, and the cursors on greater terms. -/
structure IsGroup (term : Term) (group : List (Lease C))
    (behind : Heap (Lease.before (C := C))) : Prop where
  ordered : behind.IsOrdered
  terms : ∀ lease ∈ group, lease.term = term
  ascending : group.Pairwise fun a b => a.runIndex ≤ b.runIndex
  greater : ∀ lease ∈ behind.toList, term.precedes lease.term = true

/-- What is left when the least cursor does not stand on a term stands on greater ones. -/
theorem greater_of_least {term : Term} {heap : Heap (Lease.before (C := C))}
    (least : ∀ lease ∈ heap.toList, lease.term.precedes term = false) {root : Lease C}
    (member : root ∈ heap.toList) (first : ∀ lease ∈ heap.toList, lease.before root = false)
    (differ : root.term ≠ term) : ∀ lease ∈ heap.toList, term.precedes lease.term = true := by
  intro lease found
  have next := Term.precedes_of_not (least root member) (Ne.symm differ)
  rcases Lease.not_before_iff.mp (first lease found) with before | ⟨same, _⟩
  · exact Term.precedes_trans next before
  · exact same ▸ next

/-- A cursor that comes no later than a group on its term is the first of the group. -/
theorem IsGroup.cons {term : Term} {group : List (Lease C)}
    {behind : Heap (Lease.before (C := C))} {lease : Lease C} (h : IsGroup term group behind)
    (here : lease.term = term) (first : ∀ other ∈ group, other.before lease = false) :
    IsGroup term (lease :: group) behind := by
  refine ⟨h.ordered, ?_, List.pairwise_cons.mpr ⟨fun other member => ?_, h.ascending⟩, h.greater⟩
  · intro other member
    rcases List.mem_cons.mp member with rfl | member
    · exact here
    · exact h.terms other member
  · rcases Lease.not_before_iff.mp (first other member) with before | ⟨_, le⟩
    · rw [here, h.terms other member, Term.precedes_irrefl] at before
      cases before
    · exact le

/-- Taking the cursors on a term takes them out of the heap. -/
theorem perm_takeTerm (term : Term) (heap : Heap (Lease.before (C := C))) :
    ((takeTerm term heap).1 ++ (takeTerm term heap).2.toList).Perm heap.toList := by
  fun_induction takeTerm term heap with
  | case1 heap root lease heap' taken peeked leases rest result ih =>
    rw [result] at ih
    exact (ih.cons lease).trans (Heap.items_pop taken)
  | case2 => exact .refl _

/-- Taking a group takes it out of the schedule. -/
theorem perm_popGroup {s s' : Schedule C} {first : Lease C} {rest : List (Lease C)}
    (popped : s.popGroup = some (first, rest, s')) :
    (first :: rest ++ s'.heap.toList).Perm s.heap.toList := by
  unfold popGroup at popped
  split at popped
  · cases popped
  · rename_i taken
    cases popped
    exact ((perm_takeTerm first.term _).cons first).trans (Heap.items_pop taken)

/-- Taking the cursors on a term that is no greater than any takes just these. -/
theorem group_takeTerm (term : Term) (heap : Heap (Lease.before (C := C)))
    (ordered : heap.IsOrdered)
    (least : ∀ lease ∈ heap.toList, lease.term.precedes term = false) :
    IsGroup term (takeTerm term heap).1 (takeTerm term heap).2 := by
  fun_induction takeTerm term heap with
  | case1 heap root lease heap' taken peeked leases rest result ih =>
    have kept := Heap.items_pop taken
    obtain ⟨ordered', first⟩ := Heap.isOrdered_pop Lease.heapOrder ordered taken
    have least' : ∀ lease ∈ heap'.toList, lease.term.precedes term = false :=
      fun other member => least other (kept.mem_iff.mp (List.mem_cons_of_mem _ member))
    have perm := perm_takeTerm term heap'
    have group := ih ordered' least'
    rw [result] at perm group
    rw [Heap.peek?_of_pop taken, Option.filter_eq_some_iff] at peeked
    obtain rfl := Option.some.inj peeked.1
    refine group.cons (by simpa using peeked.2) fun other member => ?_
    exact first other (kept.mem_iff.mp
      (List.mem_cons_of_mem lease (perm.mem_iff.mp (List.mem_append_left _ member))))
  | case2 heap other =>
    refine ⟨ordered, by simp, List.Pairwise.nil, ?_⟩
    cases taken : heap.pop with
    | none => simp [Heap.toList_of_pop_eq_none taken]
    | some popped =>
      obtain ⟨root, heap'⟩ := popped
      obtain ⟨_, first⟩ := Heap.isOrdered_pop Lease.heapOrder ordered taken
      have member : root ∈ heap.toList :=
        (Heap.items_pop taken).mem_iff.mp (List.mem_cons_self ..)
      refine greater_of_least least member first fun same => ?_
      exact other root root heap' (by simp [Heap.peek?_of_pop taken, same]) taken

/-- Taking the group on the least term takes all cursors on it, and leaves greater terms. -/
theorem group_popGroup {s s' : Schedule C} {first : Lease C} {rest : List (Lease C)}
    (ordered : s.heap.IsOrdered) (popped : s.popGroup = some (first, rest, s')) :
    (first :: rest ++ s'.heap.toList).Perm s.heap.toList ∧
      IsGroup first.term (first :: rest) s'.heap ∧ s'.ledger = s.ledger := by
  refine ⟨perm_popGroup popped, ?_⟩
  unfold popGroup at popped
  split at popped
  · cases popped
  · rename_i lease heap taken
    cases popped
    have kept := Heap.items_pop taken
    have ⟨ordered', least⟩ := Heap.isOrdered_pop Lease.heapOrder ordered taken
    have least' : ∀ lease ∈ heap.toList, lease.term.precedes first.term = false := by
      intro other member
      have found := kept.mem_iff.mp (List.mem_cons_of_mem _ member)
      rcases Lease.not_before_iff.mp (least other found) with before | ⟨same, _⟩
      · exact Term.precedes_asymm before
      · rw [same, Term.precedes_irrefl]
    have perm := perm_takeTerm first.term heap
    refine ⟨(group_takeTerm first.term heap ordered' least').cons rfl ?_, rfl⟩
    intro other member
    exact least other (kept.mem_iff.mp
      (List.mem_cons_of_mem first (perm.mem_iff.mp (List.mem_append_left _ member))))

/-- Taking a group does nothing with its cursors. -/
theorem ledger_popGroup {s s' : Schedule C} {first : Lease C} {rest : List (Lease C)}
    (popped : s.popGroup = some (first, rest, s')) : s'.ledger = s.ledger := by
  unfold popGroup at popped
  split at popped
  · cases popped
  · cases popped
    rfl

theorem isEmpty_iff {s : Schedule C} : s.isEmpty = true ↔ s.heap.toList = [] := by
  simp [isEmpty, size, Heap.size, Heap.toList]

theorem toList_of_isEmpty {s : Schedule C} (h : s.isEmpty = true) : s.heap.toList = [] :=
  isEmpty_iff.mp h

/-- There is a group unless nothing is scheduled. -/
theorem toList_of_popGroup {s : Schedule C} (h : s.popGroup = none) : s.heap.toList = [] := by
  unfold popGroup at h
  split at h
  · exact Heap.toList_of_pop_eq_none ‹_›
  · cases h

theorem popGroup_eq_none_iff {s : Schedule C} : s.popGroup = none ↔ s.heap.toList = [] := by
  refine ⟨toList_of_popGroup, fun empty => ?_⟩
  unfold popGroup
  rw [Heap.pop_eq_none_iff.mpr empty]

/-- What bringing back each cursor keeps, whether or not it fails, bringing back all keeps. -/
theorem requeueAll_keeps {P : Schedule C → Prop} {leases : List (Lease C)}
    (requeued : ∀ lease ∈ leases, ∀ s, P s → P (requeue lease s).2)
    (abandoned : ∀ leases s, P s → P (s.abandon leases)) {s : Schedule C} (h : P s) :
    P (requeueAll leases s).2 := by
  induction leases generalizing s with
  | nil => exact h
  | cons lease leases ih =>
    have next := requeued lease (List.mem_cons_self ..) s h
    unfold requeueAll
    split <;> rename_i result <;> rw [result] at next
    · exact ih (fun other member => requeued other (List.mem_cons_of_mem _ member)) next
    · exact abandoned leases _ next

end Schedule

end IndexMerge
