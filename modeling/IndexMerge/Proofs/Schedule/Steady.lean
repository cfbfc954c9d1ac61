import IndexMerge.Proofs.Schedule.Each

/-!
# Runs that keep their numbers

Where every cursor reports the number of its run at all entries (`RunCursor.Steady`), no two cursors
that are scheduled are of one run (`IsSteady`). Then the group that is taken next depends on which
cursors are scheduled, and not on the order in which they came into the heap (`popGroup_perm`).
-/

namespace IndexMerge

variable {F C : Type} [RunCursor C]

namespace RunCursor

/-- A cursor after a number of advances, whether or not these succeeded. -/
def afterAdvances : Nat → C → C
  | 0, c => c
  | count + 1, c => afterAdvances count (advance c).2

/-- A cursor reports one number wherever it stands. -/
def Steady (c : C) : Prop :=
  ∀ count, runIndex (afterAdvances count c) = runIndex c

theorem Steady.runIndex_advance {c : C} (h : Steady c) : runIndex (advance c).2 = runIndex c :=
  h 1

theorem Steady.advance {c : C} (h : Steady c) : Steady (advance c).2 := by
  intro count
  rw [h.runIndex_advance]
  exact h (count + 1)

end RunCursor

/-- A cursor over a run in memory keeps its number. -/
theorem MemoryCursor.steady (c : MemoryCursor) : RunCursor.Steady c := by
  intro count
  induction count generalizing c with
  | zero => rfl
  | succ count ih =>
    refine (ih _).trans ?_
    show (MemoryCursor.advance c).2.index = c.index
    unfold MemoryCursor.advance
    split
    · rfl
    · split <;> rfl

namespace Lease

variable {lease : Lease C}

/-- The cursor is of the run at whose place it was opened, and keeps its number. -/
structure IsSteady (lease : Lease C) : Prop where
  number : lease.runIndex = lease.position
  steady : RunCursor.Steady lease.cursor

theorem IsSteady.advance {cursor : C} {result : Except Error Unit} (h : lease.IsSteady)
    (advanced : RunCursor.advance lease.cursor = (result, cursor)) :
    IsSteady { lease with cursor } := by
  have kept := h.steady.runIndex_advance
  have steady := h.steady.advance
  rw [advanced] at kept steady
  exact ⟨kept.trans h.number, steady⟩

/-- The lease at the next entry of its run, if the cursor can get there. -/
def next? (lease : Lease C) : Option (Lease C) :=
  if RunCursor.hasNext lease.cursor then
    match RunCursor.advance lease.cursor with
    | (.ok (), cursor) => some { lease with cursor }
    | (.error _, _) => none
  else none

end Lease

namespace Schedule

variable {s s' t : Schedule C} {first lease : Lease C} {rest : List (Lease C)}

/-- A cursor that is brought back is scheduled at its next entry, if it can get there. -/
theorem toList_requeue (lease : Lease C) (s : Schedule C) :
    (requeue lease s).2.heap.toList.Perm (lease.next?.toList ++ s.heap.toList) := by
  unfold requeue Lease.next?
  split
  · rcases RunCursor.advance lease.cursor with ⟨_ | _, cursor⟩
    · exact .refl _
    · exact Heap.items_push _ _
  · exact .refl _

/-- An ordered heap of cursors that keep the numbers of their runs. -/
structure IsSteady (s : Schedule C) : Prop where
  ordered : s.heap.IsOrdered
  each : ∀ lease ∈ s.heap.toList, lease.IsSteady

namespace IsSteady

theorem empty : IsSteady (.empty : Schedule C) :=
  ⟨Heap.isOrdered_empty, by simp [Schedule.empty]⟩

/-- What is done with cursors outside the heap does not matter. -/
theorem of_heap (h : s.IsSteady) (same : s'.heap = s.heap) : s'.IsSteady :=
  ⟨same ▸ h.ordered, same ▸ h.each⟩

theorem tellAll (h : s.IsSteady) (notices : List Notice) : (notices.foldl tell s).IsSteady := by
  induction notices generalizing s with
  | nil => exact h
  | cons notice notices ih => exact ih (h.of_heap rfl)

theorem push (h : s.IsSteady) (steady : lease.IsSteady) (ledger : Ledger C) :
    IsSteady ⟨s.heap.push lease, ledger⟩ := by
  constructor
  · exact Heap.isOrdered_push Lease.heapOrder h.ordered lease
  · exact Each.push h.each steady

theorem releaseAll (s : Schedule C) : (releaseAll s).2.IsSteady := by
  unfold Schedule.releaseAll
  split <;> exact empty.of_heap rfl

theorem requeue (h : s.IsSteady) (steady : lease.IsSteady) : (requeue lease s).2.IsSteady := by
  unfold Schedule.requeue
  split
  · split
    · rename_i advanced
      exact h.push (steady.advance advanced) _
    · exact h.of_heap rfl
  · exact h.of_heap rfl

/-- Cursors of a group keep their numbers, and so do those left behind. -/
theorem popGroup (h : s.IsSteady) (popped : s.popGroup = some (first, rest, s')) :
    s'.IsSteady ∧ ∀ lease ∈ first :: rest, lease.IsSteady := by
  have ⟨_, group, _⟩ := group_popGroup h.ordered popped
  obtain ⟨held, behind⟩ := Each.popGroup h.each popped
  exact ⟨⟨group.ordered, behind⟩, held⟩

theorem enlist (h : s.IsSteady) (steady : RunCursor.Steady lease.cursor) :
    (enlist lease s).2.IsSteady := by
  unfold Schedule.enlist
  by_cases number : lease.runIndex = lease.position
  · rw [if_neg (not_not_intro number)]
    split
    · exact h.of_heap rfl
    · split
      · rename_i advanced
        have steady : lease.IsSteady := ⟨number, steady⟩
        exact h.push (steady.advance advanced) _
      · exact h.of_heap rfl
  · rw [if_pos number]
    exact h.of_heap rfl

variable [RunOpener F C]

theorem openRun (h : s.IsSteady) {position : Nat} {opener : F}
    (steady : ∀ cursor, (RunOpener.openRun position opener).1 = .ok cursor →
      RunCursor.Steady cursor) : (openRun position opener s).2.2.IsSteady := by
  unfold Schedule.openRun
  rcases opened : RunOpener.openRun position opener with ⟨_ | cursor, notices, opener'⟩
  · exact h.tellAll notices
  · have still : IsSteady (notices.foldl tell s) := h.tellAll notices
    have still : IsSteady { notices.foldl tell s with
        ledger := (notices.foldl tell s).ledger.record (.opened position cursor) } :=
      still.of_heap rfl
    exact still.enlist (steady cursor (congrArg Prod.fst opened))

/-- Whether or not all runs can be opened, the cursors that are scheduled keep their numbers. -/
theorem openRuns {opener : F}
    (steady : ∀ position cursor,
      (RunOpener.openRun position (openerBefore opener position)).1 = .ok cursor →
      RunCursor.Steady cursor) (count position : Nat) (h : s.IsSteady) :
    (openRuns count position (openerBefore opener position) s).2.2.IsSteady := by
  induction count generalizing position s with
  | zero => exact h
  | succ count ih =>
    have next := opener_openRun position (openerBefore opener position) s
    have still := h.openRun (steady position)
    unfold Schedule.openRuns
    split
    · rename_i opened
      rw [opened] at next still
      obtain rfl := next
      exact ih (position + 1) still
    · rename_i s' _
      have released := releaseAll s'
      split <;> rename_i gone <;> rw [gone] at released
      · exact released
      · exact released.of_heap rfl

/-- A schedule that was started has cursors that keep their numbers. -/
theorem start {opener : F}
    (steady : ∀ position cursor,
      (RunOpener.openRun position (openerBefore opener position)).1 = .ok cursor →
      RunCursor.Steady cursor) (count : Nat) : (start count opener).2.2.IsSteady :=
  openRuns steady count 0 empty

end IsSteady

section Group

/-- In a schedule without two cursors of one run, a group is all cursors on the least term, strictly
in the order of their runs. -/
theorem group_of_steady (steady : s.IsSteady)
    (apart : (s.heap.toList.map Lease.position).Nodup)
    (popped : s.popGroup = some (first, rest, s')) :
    (first :: rest).Perm (s.heap.toList.filter (·.term == first.term)) ∧
      s'.heap.toList.Perm (s.heap.toList.filter (·.term != first.term)) ∧
      (first :: rest).Pairwise (·.runIndex < ·.runIndex) ∧
      (∀ lease ∈ s.heap.toList, lease.term = first.term ∨
        first.term.precedes lease.term = true) ∧
      ∀ lease ∈ s'.heap.toList, first.term.precedes lease.term = true := by
  have ⟨perm, group, _⟩ := group_popGroup steady.ordered popped
  have ⟨_, numbers⟩ := steady.popGroup popped
  have here : ∀ lease ∈ first :: rest, (lease.term == first.term) = true :=
    fun lease member => beq_iff_eq.mpr (group.terms lease member)
  have behind : ∀ lease ∈ s'.heap.toList, (lease.term == first.term) = false := by
    intro lease member
    refine beq_false_of_ne fun same => ?_
    have greater := group.greater lease member
    rw [same, Term.precedes_irrefl] at greater
    cases greater
  have distinct : (first :: rest).Pairwise fun a b => a.position ≠ b.position := by
    have apart := (perm.map Lease.position).nodup_iff.mpr apart
    rw [List.map_append] at apart
    exact List.pairwise_map.mp (List.nodup_append.mp apart).1
  refine ⟨?_, ?_, ?_, fun lease member => ?_, group.greater⟩
  · have taken := perm.filter (·.term == first.term)
    rwa [List.filter_append, List.filter_eq_self.mpr here,
      List.filter_eq_nil_iff.mpr (by simpa using behind), List.append_nil] at taken
  · have left := perm.filter (·.term != first.term)
    rwa [List.filter_append, List.filter_eq_nil_iff.mpr (by simpa using here),
      List.filter_eq_self.mpr (by simpa using behind), List.nil_append] at left
  · refine (group.ascending.and distinct).imp_of_mem fun {a b} first second ⟨le, ne⟩ => ?_
    rw [(numbers a first).number, (numbers b second).number] at le ⊢
    exact Nat.lt_of_le_of_ne le ne
  · rcases List.mem_append.mp (perm.mem_iff.mpr member) with member | member
    · exact .inl (group.terms lease member)
    · exact .inr (group.greater lease member)

/-- The cursors that are scheduled determine the group that is taken next, and those that it leaves
behind. -/
theorem popGroup_perm (steady : s.IsSteady) (steady' : t.IsSteady)
    (apart : (s.heap.toList.map Lease.position).Nodup)
    (same : s.heap.toList.Perm t.heap.toList) (popped : s.popGroup = some (first, rest, s')) :
    ∃ t', t.popGroup = some (first, rest, t') ∧ s'.heap.toList.Perm t'.heap.toList := by
  rcases popped' : t.popGroup with _ | ⟨first', rest', t'⟩
  · have none := toList_of_popGroup popped'
    rw [none] at same
    rw [popGroup_eq_none_iff.mpr same.eq_nil] at popped
    cases popped
  · have apart' := (same.map Lease.position).nodup_iff.mp apart
    have ⟨taken, left, strict, least, _⟩ := group_of_steady steady apart popped
    have ⟨taken', left', strict', least', _⟩ := group_of_steady steady' apart' popped'
    have member : first ∈ s.heap.toList :=
      (List.mem_filter.mp (taken.mem_iff.mp (List.mem_cons_self ..))).1
    have member' : first' ∈ t.heap.toList :=
      (List.mem_filter.mp (taken'.mem_iff.mp (List.mem_cons_self ..))).1
    -- Both terms are the least one.
    have terms : first'.term = first.term := by
      rcases least first' (same.mem_iff.mpr member') with eq | before
      · exact eq
      · rcases least' first (same.mem_iff.mp member) with eq | behind
        · exact eq.symm
        · rw [Term.precedes_asymm before] at behind
          cases behind
    rw [terms] at taken' left'
    have perm := taken.trans ((same.filter _).trans taken'.symm)
    have eq : first :: rest = first' :: rest' :=
      perm.eq_of_pairwise (fun a b _ _ less greater => absurd greater (Nat.lt_asymm less)) strict
        strict'
    cases eq
    exact ⟨t', rfl, left.trans ((same.filter _).trans left'.symm)⟩

end Group

end Schedule

end IndexMerge
