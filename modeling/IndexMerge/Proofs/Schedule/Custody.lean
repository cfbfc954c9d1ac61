import IndexMerge.Proofs.Run.Closings
import IndexMerge.Proofs.Schedule.Group

/-!
# Custody of scheduled cursors

A cursor that was opened belongs to one place at a time: the schedule, a group that was taken from
it, or the ledger of what was left behind. A cursor that is scheduled or held was not closed since
it was opened, and one that was left was closed just once. Every operation on a schedule moves
cursors between these places, loses none and closes those that it gives up, whatever fails
(`Custody`). So when nothing is scheduled and nothing is held, each cursor that was ever opened was
closed once (`ClosedAll`).
-/

namespace IndexMerge

variable {F C : Type} [RunCursor C]

/-- A cursor with a position is what became of the cursor that was given there, and so many calls
closed it. -/
def CameFrom (given : List (Nat × C)) (closings : Nat) (place : Nat × C) : Prop :=
  ∃ cursor, (place.1, cursor) ∈ given ∧ RunCursor.Became cursor closings place.2

namespace Lease

/-- The position and the cursor of a lease. -/
def place (lease : Lease C) : Nat × C := (lease.position, lease.cursor)

/-- The position and the cursor of a lease, as closing leaves it. -/
def closed (lease : Lease C) : Nat × C := (lease.position, (RunCursor.close lease.cursor).2)

variable {given : List (Nat × C)} {lease : Lease C}

/-- Closing counts once. -/
theorem cameFrom_closed (h : CameFrom given 0 lease.place) : CameFrom given 1 lease.closed := by
  obtain ⟨cursor, member, became⟩ := h
  exact ⟨cursor, member, became.close⟩

@[simp] theorem given_release (lease : Lease C) (ledger : Ledger C) :
    (lease.release ledger).2.given = ledger.given := by
  simp [release_apply]

@[simp] theorem left_release (lease : Lease C) (ledger : Ledger C) :
    (lease.release ledger).2.left = ledger.left ++ [lease.closed] := by
  simp [release_apply, closed]

@[simp] theorem given_abandon (lease : Lease C) (ledger : Ledger C) :
    (lease.abandon ledger).given = ledger.given := by
  unfold abandon drop
  rcases RunCursor.close lease.cursor with ⟨_ | _, cursor⟩ <;> simp

@[simp] theorem left_abandon (lease : Lease C) (ledger : Ledger C) :
    (lease.abandon ledger).left = ledger.left ++ [lease.closed] := by
  unfold abandon drop closed
  rcases RunCursor.close lease.cursor with ⟨_ | _, cursor⟩ <;> simp

theorem given_abandonAll (leases : List (Lease C)) (ledger : Ledger C) :
    (abandonAll leases ledger).given = ledger.given := by
  induction leases generalizing ledger with
  | nil => rfl
  | cons lease leases ih => exact (ih _).trans (given_abandon lease ledger)

theorem left_abandonAll (leases : List (Lease C)) (ledger : Ledger C) :
    (abandonAll leases ledger).left = ledger.left ++ leases.map closed := by
  induction leases generalizing ledger with
  | nil => simp [abandonAll]
  | cons lease leases ih =>
    have rest := ih (lease.abandon ledger)
    rw [left_abandon, List.append_assoc] at rest
    exact rest

/-- Releasing leases closes all their cursors, whichever fails. -/
theorem ledger_releaseAll (leases : List (Lease C)) (ledger : Ledger C) :
    (releaseAll leases ledger).2.given = ledger.given ∧
      (releaseAll leases ledger).2.left = ledger.left ++ leases.map closed := by
  unfold releaseAll
  generalize (none : Option Error) = first
  induction leases generalizing first ledger with
  | nil => simp
  | cons lease leases ih =>
    rw [List.foldl_cons]
    have given := given_release lease ledger
    have left := left_release lease ledger
    dsimp only
    split <;> rename_i released <;> rw [released] at given left <;> dsimp only at given left
    · rw [(ih _ _).1, (ih _ _).2, given, left]
      simp
    · rw [(ih _ _).1, (ih _ _).2, given, left]
      simp
    · rw [(ih _ _).1, (ih _ _).2, Ledger.given_tell, Ledger.left_tell, given, left]
      simp

end Lease

namespace Schedule

section Held

omit [RunCursor C]

/-- The number of leases of a list that were opened at a position. -/
def heldAt (position : Nat) (leases : List (Lease C)) : Nat :=
  (leases.map Lease.position).count position

theorem heldAt_perm {a b : List (Lease C)} (h : a.Perm b) (position : Nat) :
    heldAt position a = heldAt position b :=
  (h.map Lease.position).count_eq position

theorem heldAt_cons (lease : Lease C) (leases : List (Lease C)) (position : Nat) :
    heldAt position (lease :: leases) = heldAt position [lease] + heldAt position leases := by
  simp [heldAt, List.count_cons, Nat.add_comm]

theorem heldAt_append (a b : List (Lease C)) (position : Nat) :
    heldAt position (a ++ b) = heldAt position a + heldAt position b := by
  simp [heldAt]

theorem heldAt_map (leases leases' : List (Lease C))
    (h : leases'.map Lease.position = leases.map Lease.position) (position : Nat) :
    heldAt position leases' = heldAt position leases := by
  rw [heldAt, heldAt, h]

end Held

/-- Of the cursors that were given, each was left, or it is scheduled, or held outside the schedule,
and in one of these places only. It was closed once if it was left, and not closed otherwise. -/
structure Custody (given : List (Nat × C)) (s : Schedule C) (held : List (Lease C)) : Prop where
  given_eq : s.ledger.given = given
  accounts : ∀ position, (given.map Prod.fst).count position =
    (s.ledger.left.map Prod.fst).count position + heldAt position held +
      heldAt position s.heap.toList
  left : ∀ place ∈ s.ledger.left, CameFrom given 1 place
  held : ∀ lease ∈ held, CameFrom given 0 lease.place
  scheduled : ∀ lease ∈ s.heap.toList, CameFrom given 0 lease.place

/-- Nothing is scheduled, and each of the cursors that were given was closed once and then left. -/
structure ClosedAll (given : List (Nat × C)) (s : Schedule C) : Prop where
  unscheduled : s.heap.toList = []
  given_eq : s.ledger.given = given
  positions : (s.ledger.left.map Prod.fst).Perm (given.map Prod.fst)
  once : ∀ place ∈ s.ledger.left, CameFrom given 1 place

namespace Custody

variable {given : List (Nat × C)} {s s' : Schedule C} {held leases : List (Lease C)}
  {lease : Lease C}

theorem empty : Custody [] (Schedule.empty : Schedule C) [] where
  given_eq := rfl
  accounts _ := rfl
  left _ member := (List.not_mem_nil member).elim
  held _ member := (List.not_mem_nil member).elim
  scheduled _ member := (List.not_mem_nil member).elim

/-- Who holds the leases outside does not matter, nor what their cursors were asked. -/
theorem move {held' : List (Lease C)} (h : Custody given s held)
    (same : ∀ position, heldAt position held' = heldAt position held)
    (kept : ∀ lease ∈ held', CameFrom given 0 lease.place) : Custody given s held' :=
  { h with accounts := fun position => by rw [same, h.accounts], held := kept }

/-- Leases of the held ones end after their cursors were closed. -/
theorem close (h : Custody given s (leases ++ held)) (heap : s'.heap = s.heap)
    (same : s'.ledger.given = s.ledger.given)
    (ended : s'.ledger.left = s.ledger.left ++ leases.map Lease.closed) :
    Custody given s' held := by
  have ⟨ending, staying⟩ := List.forall_mem_append.mp h.held
  refine ⟨same.trans h.given_eq, fun position => ?_, ?_, staying, heap ▸ h.scheduled⟩
  · have before := h.accounts position
    rw [heldAt_append] at before
    rw [ended, heap, List.map_append, List.count_append, List.map_map, before]
    show _ = _ + heldAt position leases + _ + _
    omega
  · rw [ended]
    refine List.forall_mem_append.mpr ⟨h.left, List.forall_mem_map.mpr fun lease member => ?_⟩
    exact Lease.cameFrom_closed (ending lease member)

/-- All scheduled leases end after their cursors were closed. -/
theorem closeScheduled (h : Custody given s held) (unscheduled : s'.heap.toList = [])
    (same : s'.ledger.given = s.ledger.given)
    (ended : s'.ledger.left = s.ledger.left ++ s.heap.toList.map Lease.closed) :
    Custody given s' held := by
  refine ⟨same.trans h.given_eq, fun position => ?_, ?_, h.held, ?_⟩
  · rw [ended, unscheduled, List.map_append, List.count_append, List.map_map, h.accounts]
    show _ = _ + heldAt position s.heap.toList + _ + 0
    omega
  · rw [ended]
    refine List.forall_mem_append.mpr ⟨h.left, List.forall_mem_map.mpr fun lease member => ?_⟩
    exact Lease.cameFrom_closed (h.scheduled lease member)
  · rw [unscheduled]
    exact fun _ member => (List.not_mem_nil member).elim

theorem tell (h : Custody given s held) (notice : Notice) :
    Custody given (s.tell notice) held := by
  have same : (s.tell notice).ledger.left = s.ledger.left := Ledger.left_tell ..
  refine ⟨(Ledger.given_tell ..).trans h.given_eq, fun position => ?_, ?_, h.held, h.scheduled⟩
  · rw [same]
    exact h.accounts position
  · rw [same]
    exact h.left

theorem tellAll (h : Custody given s held) (notices : List Notice) :
    Custody given (notices.foldl Schedule.tell s) held := by
  induction notices generalizing s with
  | nil => exact h
  | cons notice notices ih => exact ih (h.tell notice)

theorem release (h : Custody given s (lease :: held)) :
    Custody given (release lease s).2 held := by
  have h : Custody given s ([lease] ++ held) := h
  exact h.close rfl (Lease.given_release ..) (Lease.left_release ..)

theorem abandon (h : Custody given s (leases ++ held)) :
    Custody given (s.abandon leases) held :=
  h.close rfl (Lease.given_abandonAll ..) (Lease.left_abandonAll ..)

/-- A single cursor is abandoned. -/
theorem abandonOne (h : Custody given s (lease :: held)) :
    Custody given (s.abandon [lease]) held :=
  abandon h

theorem releaseAll (h : Custody given s held) : Custody given (releaseAll s).2 held := by
  have ⟨same, ended⟩ := Lease.ledger_releaseAll s.heap.toList s.ledger
  unfold Schedule.releaseAll
  split <;> rename_i released <;> rw [released] at same ended
  · exact h.closeScheduled rfl same ended
  · exact h.closeScheduled rfl same ended

theorem abandonAll (h : Custody given s held) : Custody given s.abandonAll held :=
  h.closeScheduled rfl (Lease.given_abandonAll ..) (Lease.left_abandonAll ..)

theorem push (h : Custody given s (lease :: held)) :
    Custody given { s with heap := s.heap.push lease } held := by
  have ⟨open_, others⟩ := List.forall_mem_cons.mp h.held
  refine ⟨h.given_eq, fun position => ?_, h.left, others, fun other member => ?_⟩
  · have before := h.accounts position
    rw [heldAt_cons] at before
    rw [heldAt_perm (Heap.items_push _ _), heldAt_cons, before]
    dsimp only
    omega
  · rcases List.mem_cons.mp ((Heap.items_push s.heap lease).mem_iff.mp member) with rfl | member
    · exact open_
    · exact h.scheduled other member

/-- An advance, whether or not it succeeds, closes nothing. -/
theorem advance {cursor : C} {result : Except Error Unit} (h : Custody given s (lease :: held))
    (advanced : RunCursor.advance lease.cursor = (result, cursor)) :
    Custody given s ({ lease with cursor } :: held) := by
  have ⟨⟨first, member, became⟩, others⟩ := List.forall_mem_cons.mp h.held
  refine h.move (fun position => ?_) (List.forall_mem_cons.mpr ⟨?_, others⟩)
  · rw [heldAt_cons, heldAt_cons lease]
    rfl
  · exact ⟨first, member, became.of_advance advanced⟩

theorem requeue (h : Custody given s (lease :: held)) :
    Custody given (requeue lease s).2 held := by
  unfold Schedule.requeue
  split
  · split <;> rename_i advanced
    · exact (h.advance advanced).push
    · exact (h.advance advanced).abandonOne
  · exact (h.tell _).release

theorem requeueAll (h : Custody given s (leases ++ held)) :
    Custody given (requeueAll leases s).2 held := by
  induction leases generalizing s with
  | nil => exact h
  | cons lease leases ih =>
    have moved : Custody given (Schedule.requeue lease s).2 (leases ++ held) := h.requeue
    unfold Schedule.requeueAll
    split <;> rename_i requeued <;> rw [requeued] at moved
    · exact ih moved
    · exact moved.abandon

theorem enlist (h : Custody given s (lease :: held)) : Custody given (enlist lease s).2 held := by
  unfold Schedule.enlist
  split
  · exact h.abandonOne
  · split
    · exact (h.tell _).release
    · split <;> rename_i advanced
      · exact (h.advance advanced).push
      · exact (h.advance advanced).abandonOne

theorem popGroup {first : Lease C} {rest : List (Lease C)}
    (h : Custody given s held) (popped : s.popGroup = some (first, rest, s')) :
    Custody given s' (first :: rest ++ held) := by
  have ledger := ledger_popGroup popped
  have perm := perm_popGroup popped
  have ⟨taken, behind⟩ := List.forall_mem_append.mp fun lease member =>
    h.scheduled lease (perm.mem_iff.mp member)
  refine ⟨by rw [ledger, h.given_eq], fun position => ?_, by rw [ledger]; exact h.left,
    List.forall_mem_append.mpr ⟨taken, h.held⟩, behind⟩
  have before := h.accounts position
  rw [← heldAt_perm perm, heldAt_append] at before
  rw [heldAt_append, ledger, before]
  omega

/-- A cursor that is opened is held. -/
theorem record (h : Custody given s held) (position : Nat) (cursor : C) :
    Custody (given ++ [(position, cursor)])
      { s with ledger := s.ledger.record (.opened position cursor) }
      (⟨position, cursor⟩ :: held) := by
  have more {closings : Nat} {place : Nat × C} (came : CameFrom given closings place) :
      CameFrom (given ++ [(position, cursor)]) closings place := by
    obtain ⟨first, member, became⟩ := came
    exact ⟨first, List.mem_append_left _ member, became⟩
  refine ⟨?_, fun other => ?_, fun place member => ?_, ?_, fun lease member => ?_⟩
  · rw [Ledger.given_record_opened, h.given_eq]
  · have before := h.accounts other
    rw [Ledger.left_record_opened, List.map_append, List.count_append, before, heldAt_cons]
    simp only [heldAt, List.map_cons, List.map_nil]
    omega
  · rw [Ledger.left_record_opened] at member
    exact more (h.left place member)
  · refine List.forall_mem_cons.mpr ⟨?_, fun lease member => more (h.held lease member)⟩
    exact ⟨cursor, List.mem_append_right _ (List.mem_singleton_self _), .given⟩
  · exact more (h.scheduled lease member)

/-- The cursors that were given are those that were left, those that are held and those that are
scheduled. -/
theorem perm (h : Custody given s held) : (given.map Prod.fst).Perm
    (s.ledger.left.map Prod.fst ++ held.map Lease.position ++
      s.heap.toList.map Lease.position) := by
  refine List.perm_iff_count.mpr fun position => ?_
  rw [h.accounts, List.count_append, List.count_append]
  rfl

theorem closedAll (h : Custody given s []) (unscheduled : s.heap.toList = []) :
    s.ClosedAll given := by
  have positions := h.perm
  rw [unscheduled, List.map_nil, List.append_nil, List.append_nil] at positions
  exact ⟨unscheduled, h.given_eq, positions.symm, h.left⟩

end Custody

/-- Releasing leaves nothing scheduled. -/
theorem toList_releaseAll (s : Schedule C) : (releaseAll s).2.heap.toList = [] := by
  unfold releaseAll
  split <;> rfl

theorem toList_of_releaseAll {s s' : Schedule C} {result : Except Error Unit}
    (h : releaseAll s = (result, s')) : s'.heap.toList = [] := by
  have unscheduled := toList_releaseAll s
  rwa [h] at unscheduled

section Opening

variable [RunOpener F C]

omit [RunCursor C]

/-- An opener after it was asked for the runs before a position, one after another. -/
def openerBefore (opener : F) : Nat → F
  | 0 => opener
  | position + 1 => (RunOpener.openRun position (openerBefore opener position)).2.2

/-- What opening a run keeps, opening one run after another keeps. -/
theorem openerBefore_keeps {P : F → Prop}
    (openRun : ∀ position opener, P opener → P (RunOpener.openRun position opener).2.2)
    {opener : F} (h : P opener) (position : Nat) : P (openerBefore opener position) := by
  induction position with
  | zero => exact h
  | succ position ih => exact openRun position _ ih

/-- What an opener answers when it is asked for a run behind those before it. -/
def answer (opener : F) (position : Nat) : Except Error C :=
  (RunOpener.openRun position (openerBefore opener position)).1

/-- The cursor that an answer gives for a position, if it gives one. -/
def givenBy (position : Nat) (answered : Except Error C) : Option (Nat × C) :=
  answered.toOption.map (position, ·)

/-- The cursors that an opener gives when it is asked for the runs before `count`, one after
another, each with its position. -/
def givenBefore (opener : F) (count : Nat) : List (Nat × C) :=
  (List.range count).filterMap fun position => givenBy position (answer opener position)

theorem givenBefore_succ (opener : F) (position : Nat) :
    givenBefore (C := C) opener (position + 1) = givenBefore opener position ++
      (givenBy position (answer opener position)).toList := by
  rw [givenBefore, List.range_succ, List.filterMap_append, List.filterMap_cons]
  cases givenBy position (answer (C := C) opener position) <;> rfl

/-- An opener gives a cursor for each position at which it does not fail. -/
theorem positions_givenBefore (opener : F) (count : Nat) :
    (givenBefore (C := C) opener count).map Prod.fst =
      (List.range count).filter fun position => (answer (C := C) opener position).isOk := by
  rw [givenBefore, List.map_filterMap, ← List.filterMap_eq_filter]
  congr 1
  funext position
  rw [Option.guard]
  cases answer (C := C) opener position <;> rfl

theorem nodup_givenBefore (opener : F) (count : Nat) :
    ((givenBefore (C := C) opener count).map Prod.fst).Nodup := by
  rw [positions_givenBefore]
  exact List.nodup_range.filter _

end Opening

variable {given : List (Nat × C)} {s : Schedule C} [RunOpener F C]

theorem opener_openRun (position : Nat) (opener : F) (s : Schedule C) :
    (openRun position opener s).2.1 = (RunOpener.openRun position opener).2.2 := by
  unfold openRun
  rcases RunOpener.openRun position opener with ⟨_ | cursor, notices, opener'⟩ <;> rfl

/-- Opening a run takes custody of its cursor, if there is one. -/
theorem Custody.openRun (h : Custody given s []) (position : Nat) (opener : F) :
    Custody (given ++ (givenBy position (RunOpener.openRun position opener).1).toList)
      (openRun position opener s).2.2 [] := by
  unfold Schedule.openRun
  rcases RunOpener.openRun position opener with ⟨_ | cursor, notices, opener'⟩
  · have told := h.tellAll notices
    rwa [← List.append_nil given] at told
  · exact ((h.tellAll notices).record position cursor).enlist

/-- The number of runs that were asked for when opening `count` runs ended. -/
def asked (count : Nat) : Except Error Unit → Nat
  | .error (.initialization failed _) => failed + 1
  | _ => count

/-- Cursors that are opened are in custody, and if one fails, all are released. -/
theorem custody_openRuns (count position : Nat) (opener : F)
    (h : Custody (givenBefore opener position) s []) :
    let (result, _, s') := openRuns count position (openerBefore opener position) s
    Custody (givenBefore opener (asked (position + count) result)) s' [] ∧
      (result ≠ .ok () → s'.heap.toList = []) := by
  induction count generalizing position s with
  | zero => exact ⟨h, fun failed => absurd rfl failed⟩
  | succ count ih =>
    have next := opener_openRun position (openerBefore opener position) s
    have kept := h.openRun position (openerBefore opener position)
    rw [← answer, ← givenBefore_succ] at kept
    unfold openRuns
    generalize Schedule.openRun position (openerBefore opener position) s = outcome at *
    obtain ⟨_ | _, opener', s'⟩ := outcome
    · have released := kept.releaseAll
      have unscheduled := toList_releaseAll s'
      dsimp only at *
      generalize releaseAll s' = outcome at *
      obtain ⟨_ | _, s''⟩ := outcome
      · exact ⟨released.tell _, fun _ => unscheduled⟩
      · exact ⟨released, fun _ => unscheduled⟩
    · have next : opener' = openerBefore opener (position + 1) := next
      subst next
      have more := ih (position + 1) kept
      rwa [Nat.add_right_comm] at more

theorem custody_start (count : Nat) (opener : F) :
    let (result, _, s) := start count opener
    Custody (givenBefore opener (asked count result)) s [] ∧
      (result ≠ .ok () → s.heap.toList = []) := by
  have opened := custody_openRuns (C := C) count 0 opener (s := empty) .empty
  rwa [Nat.zero_add] at opened

end Schedule

end IndexMerge
