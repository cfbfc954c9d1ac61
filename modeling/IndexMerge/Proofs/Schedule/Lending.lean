import IndexMerge.Proofs.Merge.Memory
import IndexMerge.Proofs.Schedule.Steady
import Mathlib.Data.List.Nodup

/-!
# Groups that are held

Groups that were taken from a schedule are held while others are taken, and their cursors come back,
are released or are dropped one by one, in any order (`Use`). Whatever was done, every cursor is in
one place, and the group that is taken next is just the cursors on the least term (`Orderly`). In
which order cursors come back does not matter for later groups (`groups_perm`): two states with the
same cursors in the same places are used alike (`Alike`).
-/

namespace IndexMerge

variable {F C : Type} [RunCursor C]

/-- A schedule, and the cursors of groups that were taken from it and are still held. -/
structure Lending (C : Type) [RunCursor C] where
  schedule : Schedule C
  held : List (Lease C)

/-- A use of a schedule: its next group is taken, or a cursor that is held, which is named by its
position, is brought back, released or dropped. -/
inductive Use where
  | pop
  | requeue (position : Nat)
  | release (position : Nat)
  | drop (position : Nat)
  deriving DecidableEq, Repr

namespace Lending

/-- Takes the next group, which is held from then on. -/
def pop (l : Lending C) : Option (List (Lease C)) × Lending C :=
  match l.schedule.popGroup with
  | none => (none, l)
  | some (first, rest, schedule) => (some (first :: rest), ⟨schedule, first :: rest ++ l.held⟩)

/-- The cursor of a position that is held. -/
def heldAt? (position : Nat) (l : Lending C) : Option (Lease C) :=
  l.held.find? (·.position == position)

/-- Gives the cursor of a position that is held back to the schedule. -/
def settle (give : Lease C → Schedule C → Schedule C) (position : Nat) (l : Lending C) :
    Lending C :=
  match l.heldAt? position with
  | none => l
  | some lease => ⟨give lease l.schedule, l.held.filter (·.position != position)⟩

/-- The state after a use, whether or not it succeeded. -/
def after (l : Lending C) : Use → Lending C
  | .pop => l.pop.2
  | .requeue position => l.settle (fun lease s => (Schedule.requeue lease s).2) position
  | .release position => l.settle (fun lease s => (Schedule.release lease s).2) position
  | .drop position => l.settle (fun lease s => s.abandon [lease]) position

/-- The state after a sequence of uses. -/
def perform (uses : List Use) (l : Lending C) : Lending C :=
  uses.foldl after l

/-- The groups that are taken by a sequence of uses, none where nothing was scheduled. -/
def groups : List Use → Lending C → List (Option (List (Lease C)))
  | [], _ => []
  | .pop :: uses, l => l.pop.1 :: groups uses l.pop.2
  | use :: uses, l => groups uses (l.after use)

/-- The state after cursors that are held were brought back, one behind another. -/
def requeueAll (positions : List Nat) (l : Lending C) : Lending C :=
  l.perform (positions.map .requeue)

section Settling

variable {l l' : Lending C} {lease : Lease C} {give : Lease C → Schedule C → Schedule C}
  {back : Lease C → List (Lease C)} {position : Nat}

theorem position_of_heldAt? (found : l.heldAt? position = some lease) :
    lease.position = position := by
  have here := List.find?_some found
  exact beq_iff_eq.mp here

/-- The cursor of a position is held beside those of other positions. -/
theorem perm_of_heldAt? (apart : (l.held.map Lease.position).Nodup)
    (found : l.heldAt? position = some lease) :
    l.held.Perm (lease :: l.held.filter (·.position != position)) := by
  obtain ⟨here, before, behind, same, others⟩ := List.find?_eq_some_iff_append.mp found
  have here := beq_iff_eq.mp here
  rw [same] at apart ⊢
  rw [List.map_append, List.map_cons] at apart
  have ⟨_, tail, _⟩ := List.nodup_append.mp apart
  have kept : ∀ other ∈ behind, (other.position != position) = true := by
    intro other member
    refine bne_iff_ne.mpr fun same => (List.nodup_cons.mp tail).1 ?_
    rw [here, ← same]
    exact List.mem_map_of_mem member
  have front : before.filter (·.position != position) = before :=
    List.filter_eq_self.mpr others
  rw [List.filter_append, List.filter_cons_of_neg (by simp [here]), front,
    List.filter_eq_self.mpr kept]
  exact List.perm_middle

theorem held_settle (give : Lease C → Schedule C → Schedule C) (position : Nat) (l : Lending C) :
    (l.settle give position).held = l.held.filter (·.position != position) := by
  unfold settle
  cases found : l.heldAt? position with
  | some lease => rfl
  | none =>
    have absent := List.find?_eq_none.mp found
    exact (List.filter_eq_self.mpr fun lease member => by simpa using absent lease member).symm

/-- What a cursor that is given back adds to the heap is all that is added. -/
theorem toList_settle
    (gives : ∀ lease s, (give lease s).heap.toList.Perm (back lease ++ s.heap.toList))
    (position : Nat) (l : Lending C) : (l.settle give position).schedule.heap.toList.Perm
      ((l.heldAt? position).toList.flatMap back ++ l.schedule.heap.toList) := by
  unfold settle
  cases l.heldAt? position with
  | none => exact .refl _
  | some lease => simpa using gives lease l.schedule

/-- A cursor that is released is not scheduled. -/
theorem gives_release (lease : Lease C) (s : Schedule C) :
    (Schedule.release lease s).2.heap.toList.Perm ([] ++ s.heap.toList) :=
  .refl _

/-- A cursor that is dropped is not scheduled. -/
theorem gives_drop (lease : Lease C) (s : Schedule C) :
    (s.abandon [lease]).heap.toList.Perm ([] ++ s.heap.toList) :=
  .refl _

/-- Giving back one cursor does not hide another. -/
theorem heldAt?_settle {other : Nat} (differ : other ≠ position) :
    (l.settle give position).heldAt? other = l.heldAt? other := by
  rw [heldAt?, heldAt?, held_settle, List.find?_filter]
  congr 1
  funext lease
  by_cases here : lease.position = other
  · simp [here, differ]
  · simp [here]

end Settling

/-- Every cursor that was given is in one place, the heap is in order, and cursors keep the numbers
of their runs. -/
structure Orderly (given : List (Nat × C)) (l : Lending C) : Prop where
  custody : l.schedule.Custody given l.held
  nodup : (given.map Prod.fst).Nodup
  steady : l.schedule.IsSteady
  each : ∀ lease ∈ l.held, lease.IsSteady

namespace Orderly

variable {given : List (Nat × C)} {l : Lending C} {give : Lease C → Schedule C → Schedule C}

/-- No two cursors that are held or scheduled were opened at one position. -/
theorem apart (h : Orderly given l) :
    ((l.held ++ l.schedule.heap.toList).map Lease.position).Nodup := by
  refine List.nodup_iff_count_le_one.mpr fun position => ?_
  have once := List.nodup_iff_count_le_one.mp h.nodup position
  have accounts := h.custody.accounts position
  rw [List.map_append, List.count_append]
  simp only [Schedule.heldAt] at accounts
  omega

theorem apart_held (h : Orderly given l) : (l.held.map Lease.position).Nodup := by
  have apart := h.apart
  rw [List.map_append] at apart
  exact (List.nodup_append.mp apart).1

theorem apart_heap (h : Orderly given l) :
    (l.schedule.heap.toList.map Lease.position).Nodup := by
  have apart := h.apart
  rw [List.map_append] at apart
  exact (List.nodup_append.mp apart).2.1

theorem pop (h : Orderly given l) : Orderly given l.pop.2 := by
  unfold Lending.pop
  split
  · exact h
  · rename_i popped
    have ⟨steady, group⟩ := h.steady.popGroup popped
    refine ⟨h.custody.popGroup popped, h.nodup, steady, fun lease member => ?_⟩
    rcases List.mem_append.mp member with member | member
    · exact group lease member
    · exact h.each lease member

/-- Giving a cursor back keeps the order, if what is done with it does. -/
theorem settle (h : Orderly given l)
    (custody : ∀ {s : Schedule C} {lease : Lease C} {held : List (Lease C)},
      s.Custody given (lease :: held) → (give lease s).Custody given held)
    (steady : ∀ {s : Schedule C} {lease : Lease C}, s.IsSteady → lease.IsSteady →
      (give lease s).IsSteady) (position : Nat) : Orderly given (l.settle give position) := by
  unfold Lending.settle
  cases found : l.heldAt? position with
  | none => exact h
  | some lease =>
    have perm := perm_of_heldAt? h.apart_held found
    have member : lease ∈ l.held := perm.mem_iff.mpr (List.mem_cons_self ..)
    have moved := h.custody.move (fun other => Schedule.heldAt_perm perm.symm other)
      fun other member => h.custody.held other (perm.mem_iff.mpr member)
    exact ⟨custody moved, h.nodup, steady h.steady (h.each lease member),
      fun other member => h.each other (List.mem_filter.mp member).1⟩

theorem after (h : Orderly given l) (use : Use) : Orderly given (l.after use) := by
  cases use with
  | pop => exact h.pop
  | requeue position =>
    exact h.settle Schedule.Custody.requeue Schedule.IsSteady.requeue position
  | release position =>
    exact h.settle Schedule.Custody.release (fun steady _ => steady.of_heap rfl) position
  | drop position =>
    exact h.settle Schedule.Custody.abandonOne (fun steady _ => steady.of_heap rfl) position

theorem perform (h : Orderly given l) (uses : List Use) : Orderly given (l.perform uses) := by
  induction uses generalizing l with
  | nil => exact h
  | cons use uses ih => exact ih (h.after use)

end Orderly

/-- Two states have the same cursors scheduled and the same cursors held. -/
structure Alike (l l' : Lending C) : Prop where
  scheduled : l.schedule.heap.toList.Perm l'.schedule.heap.toList
  held : l.held.Perm l'.held

namespace Alike

variable {given : List (Nat × C)} {l l' l'' : Lending C}

theorem refl (l : Lending C) : Alike l l :=
  ⟨.refl _, .refl _⟩

theorem trans (h : Alike l l') (h' : Alike l' l'') : Alike l l'' :=
  ⟨h.scheduled.trans h'.scheduled, h.held.trans h'.held⟩

/-- The same cursor of a position is held. -/
theorem heldAt? (h : Alike l l') (orderly : Orderly given l) (position : Nat) :
    l.heldAt? position = l'.heldAt? position := by
  cases found : l.heldAt? position with
  | none =>
    have absent := List.find?_eq_none.mp found
    exact (List.find?_eq_none.mpr fun lease member =>
      absent lease (h.held.mem_iff.mpr member)).symm
  | some lease =>
    have member := List.mem_of_find?_eq_some found
    cases found' : l'.heldAt? position with
    | none =>
      have absent := List.find?_eq_none.mp found' lease (h.held.mem_iff.mp member)
      exact absurd (List.find?_some found) absent
    | some other =>
      have member' := h.held.mem_iff.mpr (List.mem_of_find?_eq_some found')
      have same := (position_of_heldAt? found).trans (position_of_heldAt? found').symm
      rw [List.inj_on_of_nodup_map orderly.apart_held member member' same]

/-- The same group is taken next. -/
theorem pop (h : Alike l l') (orderly : Orderly given l) (orderly' : Orderly given l') :
    l.pop.1 = l'.pop.1 ∧ Alike l.pop.2 l'.pop.2 := by
  unfold Lending.pop
  rcases popped : l.schedule.popGroup with _ | ⟨first, rest, schedule⟩
  · have none := h.scheduled
    rw [Schedule.toList_of_popGroup popped] at none
    rw [Schedule.popGroup_eq_none_iff.mpr none.symm.eq_nil]
    exact ⟨rfl, h⟩
  · obtain ⟨schedule', popped', left⟩ := Schedule.popGroup_perm orderly.steady orderly'.steady
      orderly.apart_heap h.scheduled popped
    rw [popped']
    exact ⟨rfl, left, h.held.append_left _⟩

theorem settle (h : Alike l l') (orderly : Orderly given l)
    {give : Lease C → Schedule C → Schedule C} {back : Lease C → List (Lease C)}
    (gives : ∀ lease s, (give lease s).heap.toList.Perm (back lease ++ s.heap.toList))
    (position : Nat) : Alike (l.settle give position) (l'.settle give position) := by
  refine ⟨?_, ?_⟩
  · refine (toList_settle gives position l).trans (.trans ?_ (toList_settle gives position l').symm)
    rw [h.heldAt? orderly position]
    exact h.scheduled.append_left _
  · rw [held_settle, held_settle]
    exact h.held.filter _

theorem after (h : Alike l l') (orderly : Orderly given l) (orderly' : Orderly given l')
    (use : Use) : Alike (l.after use) (l'.after use) := by
  cases use with
  | pop => exact (h.pop orderly orderly').2
  | requeue position => exact h.settle orderly Schedule.toList_requeue position
  | release position => exact h.settle orderly gives_release position
  | drop position => exact h.settle orderly gives_drop position

/-- States that are alike stay alike in any use. -/
theorem perform (h : Alike l l') (orderly : Orderly given l) (orderly' : Orderly given l')
    (uses : List Use) : Alike (l.perform uses) (l'.perform uses) := by
  induction uses generalizing l l' with
  | nil => exact h
  | cons use uses ih =>
    exact ih (h.after orderly orderly' use) (orderly.after use) (orderly'.after use)

/-- States that are alike give the same groups from then on. -/
theorem groups_eq (h : Alike l l') (orderly : Orderly given l) (orderly' : Orderly given l')
    (uses : List Use) : groups uses l = groups uses l' := by
  induction uses generalizing l l' with
  | nil => rfl
  | cons use uses ih =>
    have rest := ih (h.after orderly orderly' use) (orderly.after use) (orderly'.after use)
    cases use with
    | pop => exact congrArg₂ List.cons (h.pop orderly orderly').1 rest
    | requeue => exact rest
    | release => exact rest
    | drop => exact rest

end Alike

section Order

variable {given : List (Nat × C)} {l : Lending C}

/-- Of two cursors either may come back first. -/
theorem alike_requeue (a b : Nat) (l : Lending C) :
    Alike ((l.after (.requeue a)).after (.requeue b))
      ((l.after (.requeue b)).after (.requeue a)) := by
  by_cases same : a = b
  · subst same
    exact .refl _
  · have scheduled (position : Nat) (l : Lending C) :=
      toList_settle Schedule.toList_requeue position l
    have held (position : Nat) (l : Lending C) : (l.after (.requeue position)).held =
        l.held.filter (·.position != position) := held_settle _ position l
    have first : (l.after (.requeue a)).heldAt? b = l.heldAt? b := heldAt?_settle (Ne.symm same)
    have second : (l.after (.requeue b)).heldAt? a = l.heldAt? a := heldAt?_settle same
    refine ⟨?_, ?_⟩
    · refine (scheduled b _).trans (.trans ?_ (scheduled a _).symm)
      rw [first, second]
      refine ((scheduled a l).append_left _).trans (.trans ?_ ((scheduled b l).append_left _).symm)
      exact List.perm_append_comm_assoc ..
    · rw [held, held, held, held, List.filter_comm]

/-- The order in which cursors come back does not matter. -/
theorem alike_requeueAll {order order' : List Nat} (same : order.Perm order')
    (h : Orderly given l) : Alike (l.requeueAll order) (l.requeueAll order') := by
  induction same generalizing l with
  | nil => exact .refl l
  | cons position _ ih => exact ih (h.after (.requeue position))
  | swap a b order =>
    exact (alike_requeue b a l).perform ((h.after _).after _) ((h.after _).after _) _
  | trans _ _ first second => exact (first h).trans (second h)

/-- The order in which cursors come back does not change the groups that are taken later. -/
theorem groups_perm {order order' : List Nat} (same : order.Perm order') (h : Orderly given l)
    (later : List Use) : groups later (l.requeueAll order) = groups later (l.requeueAll order') :=
  (alike_requeueAll same h).groups_eq (h.perform _) (h.perform _) later

end Order

/-- Runs are opened that keep their numbers, and their schedule is used in any way. Then every
cursor that was opened is scheduled, held or left behind, and in one of these places only. One that
was left behind was closed just once since it was opened, and the others were not closed. There is a
next group just if a cursor is scheduled: it is all cursors on the least term, strictly in the order
of their runs, and those that it leaves behind stand on greater terms. In which order cursors that
are held come back does not change any group that is taken later. -/
theorem groups_of_perform [RunOpener F C] (count : Nat) (opener : F)
    (steady : ∀ position cursor,
      (RunOpener.openRun position (Schedule.openerBefore opener position)).1 = .ok cursor →
      RunCursor.Steady cursor) (uses : List Use) :
    let (result, _, started) := Schedule.start count opener
    let given := Schedule.givenBefore opener (Schedule.asked count result)
    let l := perform uses ⟨started, []⟩
    let scheduled := l.schedule.heap.toList
    ((given.map Prod.fst).Nodup ∧ l.schedule.ledger.given = given ∧
      (given.map Prod.fst).Perm (l.schedule.ledger.left.map Prod.fst ++
        l.held.map Lease.position ++ scheduled.map Lease.position) ∧
      (∀ place ∈ l.schedule.ledger.left, CameFrom given 1 place) ∧
      (∀ lease ∈ l.held, CameFrom given 0 lease.place) ∧
      ∀ lease ∈ scheduled, CameFrom given 0 lease.place) ∧
    (l.schedule.popGroup = none ↔ scheduled = []) ∧
    (∀ first rest left, l.schedule.popGroup = some (first, rest, left) →
      (first :: rest).Perm (scheduled.filter (·.term == first.term)) ∧
        left.heap.toList.Perm (scheduled.filter (·.term != first.term)) ∧
        (first :: rest).Pairwise (·.runIndex < ·.runIndex) ∧
        (∀ lease ∈ scheduled, lease.term = first.term ∨
          first.term.precedes lease.term = true) ∧
        ∀ lease ∈ left.heap.toList, first.term.precedes lease.term = true) ∧
    ∀ order order' later, order.Perm order' →
      groups later (l.requeueAll order) = groups later (l.requeueAll order') := by
  have opened := Schedule.custody_start (C := C) count opener
  have begun := Schedule.IsSteady.start steady count
  generalize Schedule.start count opener = outcome at *
  obtain ⟨result, opener', started⟩ := outcome
  have h : Orderly (Schedule.givenBefore opener (Schedule.asked count result))
      (perform uses ⟨started, []⟩) :=
    Orderly.perform ⟨opened.1, Schedule.nodup_givenBefore _ _, begun, by simp⟩ uses
  exact ⟨⟨h.nodup, h.custody.given_eq, h.custody.perm, h.custody.left, h.custody.held,
    h.custody.scheduled⟩, Schedule.popGroup_eq_none_iff, fun _ _ _ popped =>
    Schedule.group_of_steady h.steady h.apart_heap popped, fun _ _ later same =>
    groups_perm same h later⟩

/-- The group on the first term of the two runs may come back in any order. If one of its cursors is
released and the other one is dropped, both are closed. -/
theorem groups_of_perform_overlapping :
    let (_, _, started) := Schedule.start 2 overlappingRuns
    let l := perform [.pop] ⟨started, []⟩
    let ended := l.perform [.release 1, .drop 0]
    l.held.map Lease.position = [0, 1] ∧
      groups [.pop, .pop] (l.requeueAll [0, 1]) = groups [.pop, .pop] (l.requeueAll [1, 0]) ∧
      ended.schedule.ledger.left.map (fun place => (place.1, place.2.isClosed)) =
        [(1, true), (0, true)] :=
  ⟨by decide +kernel,
    (groups_of_perform 2 overlappingRuns (fun _ c _ => c.steady) [.pop]).2.2.2 [0, 1] [1, 0]
      [.pop, .pop] (.swap ..),
    by decide +kernel⟩

end Lending

end IndexMerge
