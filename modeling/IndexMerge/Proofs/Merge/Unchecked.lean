import IndexMerge.Merge.Loop
import IndexMerge.Proofs.Schedule.Apart
import IndexMerge.Proofs.Schedule.Unchecked

/-!
# Merges that do not look at documents

A step of a merge whose runs lie one before another is compared with the step of the same merge
where cursors do not look at documents. Either a cursor reports a document, or neither step is
refused because of the order of documents (`step_unchecked`).
-/

namespace IndexMerge

open Attempt

variable {C S D : Type} [RunCursor C] {headers : List RunHeader}

/-- The order of documents was refused by a sink. -/
def RefusesOrder {α : Type} (result : Except Error α) : Prop :=
  ∃ doc last, result = .error (.violation (.writtenOrder doc last))

section

variable {α β : Type} {e : Error}

theorem not_refusesOrder_ok (a : α) : ¬RefusesOrder (.ok a : Except Error α) := nofun

theorem not_refusesOrder_error (other : ∀ doc last, e ≠ .violation (.writtenOrder doc last)) :
    ¬RefusesOrder (.error e : Except Error α) := by
  rintro ⟨doc, last, failed⟩
  exact other doc last (Except.error.inj failed)

/-- What reports no violation refuses no order. -/
theorem not_refusesOrder {result : Except Error α} (quiet : ∀ v, result ≠ .error (.violation v)) :
    ¬RefusesOrder result := by
  rintro ⟨doc, last, failed⟩
  exact quiet _ failed

theorem not_refusesOrder_of_eq {result : Except Error α} (failed : result = .error e)
    (accepted : ¬RefusesOrder result) : ¬RefusesOrder (.error e : Except Error β) := by
  refine not_refusesOrder_error fun doc last same => accepted ⟨doc, last, ?_⟩
  rw [failed, same]

end

/-- Cursors that report violations only of the postings that they give. -/
structure Calm (C : Type) [RunCursor C] : Prop where
  advance : Quiet (RunCursor.advance (C := C))
  close : Quiet (RunCursor.close (C := C))

theorem StoredCursor.calm : Calm StoredCursor :=
  ⟨StoredCursor.quiet_advance, fun _ _ => nofun⟩

theorem UncheckedCursor.calm : Calm UncheckedCursor :=
  ⟨fun c => StoredCursor.quiet_advance c.cursor, fun _ _ => nofun⟩

namespace Schedule

theorem quiet_requeue (calm : Calm C) (lease : Lease C) : Quiet (requeue lease) := by
  intro s v
  unfold requeue
  split
  · have advanced := calm.advance lease.cursor v
    split <;> rename_i result
    · simp
    · rw [result] at advanced
      exact fun failed => advanced (congrArg Except.error (Except.error.inj failed))
  · exact calm.close lease.cursor v

theorem quiet_requeueAll (calm : Calm C) (leases : List (Lease C)) :
    Quiet (requeueAll leases) := by
  induction leases with
  | nil => exact fun s v => nofun
  | cons lease leases ih =>
    intro s v
    have first := quiet_requeue calm lease s v
    unfold requeueAll
    split <;> rename_i requeued
    · exact ih _ v
    · rw [requeued] at first
      exact first

end Schedule

/-- Two runs of which one has the lesser number lie one before the other. -/
theorem RunHeader.apart_of_lt (apart : headers.Pairwise Before) {a b : RunHeader}
    (first : a ∈ headers) (second : b ∈ headers) (less : a.runIndex < b.runIndex) :
    a.lastDoc < b.firstDoc := by
  have all := List.Pairwise.forall_of_forall_of_flip
    (R := fun a b : RunHeader => a.runIndex < b.runIndex → a.lastDoc < b.firstDoc)
    (fun a _ same => absurd same (UInt32.lt_irrefl _)) (apart.imp fun before _ => before.2)
    (apart.imp fun before less => absurd less (UInt32.lt_asymm before.1))
  exact all first second less

namespace Merge

theorem pairwise_of_checkOrder {leases : List (Lease C)} (checked : checkOrder leases = .ok ()) :
    leases.Pairwise fun a b => a.runIndex < b.runIndex := by
  fun_induction checkOrder leases with
  | case1 a b rest less ih =>
    have behind := ih checked
    refine List.pairwise_cons.mpr ⟨fun other member => ?_, behind⟩
    rcases List.mem_cons.mp member with rfl | member
    · exact less
    · exact Nat.lt_trans less ((List.pairwise_cons.mp behind).1 other member)
  | case2 => cases checked
  | case3 leases short =>
    rcases leases with _ | ⟨a, _ | ⟨b, rest⟩⟩
    · exact .nil
    · exact List.pairwise_singleton ..
    · exact (short a b rest rfl).elim

theorem checkOrder_unchecked (leases : List (Lease StoredCursor)) :
    checkOrder (leases.map Lease.unchecked) = checkOrder leases := by
  fun_induction checkOrder leases with
  | case1 a b rest less ih =>
    show (if a.runIndex < b.runIndex then checkOrder ((b :: rest).map Lease.unchecked) else _) = _
    rw [if_pos less, ih]
  | case2 a b rest notLess =>
    show (if a.runIndex < b.runIndex then _ else _) = _
    rw [if_neg notLess]
    rfl
  | case3 leases short =>
    rcases leases with _ | ⟨a, _ | ⟨b, rest⟩⟩
    · rfl
    · rfl
    · exact (short a b rest rfl).elim

theorem combineAll_unchecked (first : Lease StoredCursor) (rest : List (Lease StoredCursor)) :
    combineAll first.unchecked (rest.map Lease.unchecked) = combineAll first rest := by
  unfold combineAll
  rw [List.foldlM_map]
  rfl

theorem not_refusesOrder_checkOrder {leases : List (Lease C)} {e : Error}
    (failed : checkOrder leases = .error e) :
    ¬RefusesOrder (.error e : Except Error MergedTerm) := by
  fun_induction checkOrder leases with
  | case1 a b rest less ih => exact ih failed
  | case2 a b rest notLess =>
    cases failed
    exact not_refusesOrder_error nofun
  | case3 leases short => cases failed

theorem not_refusesOrder_combineAll {first : Lease C} {rest : List (Lease C)} {e : Error}
    (failed : combineAll first rest = .error e) :
    ¬RefusesOrder (.error e : Except Error MergedTerm) := by
  unfold combineAll at failed
  generalize (RunCursor.statistics first.cursor).detached = sum at failed
  induction rest generalizing sum with
  | nil => cases failed
  | cons lease rest ih =>
    rw [List.foldlM_cons] at failed
    cases next : sum.combine (RunCursor.statistics lease.cursor) with
    | ok sum' =>
      rw [next] at failed
      exact ih sum' failed
    | error e' =>
      rw [next] at failed
      cases failed
      rw [TermStatistics.combine_eq] at next
      split at next
      · cases next
        exact not_refusesOrder_error nofun
      · split at next <;> cases next
        exact not_refusesOrder_error nofun

/-- The runs of a group in the order of their numbers lie one before another. -/
theorem inOrder_of_checkOrder {leases : List (Lease StoredCursor)}
    (apart : headers.Pairwise RunHeader.Before)
    (listed : ∀ lease ∈ leases, lease.cursor.header ∈ headers)
    (checked : checkOrder leases = .ok ()) :
    Lease.InOrder (leases.map (·.cursor.header)) none (leases.map Lease.openPostings) := by
  refine ⟨fun opened member => ?_, ?_, fun _ _ _ none => by cases none⟩
  · obtain ⟨lease, held, rfl⟩ := List.mem_map.mp member
    exact List.mem_map.mpr ⟨lease, held, rfl⟩
  · refine List.pairwise_map.mpr ((pairwise_of_checkOrder checked).imp_of_mem ?_)
    intro a b first second less
    exact RunHeader.apart_of_lt apart (listed a first) (listed b second)
      (UInt32.lt_iff_toNat_lt.mpr less)

variable [PostingSink S]

/-- The postings of cursors as they are stored: one after another, and counted. -/
def row (leases : List (Lease C)) : CountedPostings (PostingSequence (Lease C)) :=
  ⟨.ofList (leases.map Lease.openPostings), 0⟩

theorem store_of_write {leases : List (Lease C)} {sink : S} {e : Error}
    (failed : (PostingSink.write (row leases) sink).1 = .error e) (term : Term) :
    (store term leases sink).1 = .error e := by
  unfold store
  unfold row at failed
  dsimp only
  split <;> rename_i written <;> rw [written] at failed
  · exact congrArg Except.error (Except.error.inj failed)
  · cases failed

theorem not_refusesOrder_store {leases : List (Lease C)} {sink : S}
    (accepted : ¬RefusesOrder (PostingSink.write (row leases) sink).1) (term : Term) :
    ¬RefusesOrder (store term leases sink).1 := by
  unfold store
  unfold row at accepted
  dsimp only
  split <;> rename_i written <;> rw [written] at accepted
  · exact not_refusesOrder_of_eq rfl accepted
  · split
    · exact not_refusesOrder_ok _
    · exact not_refusesOrder_error nofun

/-- Storing the postings of cursors over runs one before another comes to what a cursor reports of a
document, or no order is refused, even if the cursors do not look at documents. -/
theorem store_unchecked (drains : Drains S) {leases : List (Lease StoredCursor)}
    (ordered : Lease.InOrder headers none (leases.map Lease.openPostings)) (term : Term)
    (sink : S) : (∃ e, (store term leases sink).1 = .error e ∧ ∃ h ∈ headers, h.Reports e) ∨
      ¬RefusesOrder (store term leases sink).1 ∧
        ¬RefusesOrder (store term (leases.map Lease.unchecked) sink).1 := by
  have waiting : Lease.InOrder headers none (row leases).inner.waiting := by
    rwa [row, PostingSequence.waiting_ofList]
  have same : (row (leases.map Lease.unchecked)).inner =
      (row leases).inner.map Lease.unchecked := by
    rw [row, row, PostingSequence.map_ofList, List.map_map, List.map_map]
    rfl
  rcases drains.write (Guards.counted (PostingSequence.guards_unchecked headers))
    ⟨waiting, same⟩ sink with ⟨e, failed, reports⟩ | ⟨written, quiet⟩
  · exact .inl ⟨e, store_of_write failed term, reports⟩
  · refine .inr ⟨not_refusesOrder_store (not_refusesOrder quiet) term, ?_⟩
    rw [← written] at quiet
    exact not_refusesOrder_store (not_refusesOrder quiet) term

variable [Dictionary D]

omit [PostingSink S] in
/-- Entering a term refuses no order unless the dictionary does. -/
theorem not_refusesOrder_enter (calm : Calm C)
    (accepts : ∀ e (d : D), ¬RefusesOrder (Dictionary.add e d).1) {term : Term} {runs : List Nat}
    {statistics : TermStatistics} {pointer : BitPosition} {postings : Nat}
    {leases : List (Lease C)} (m : Merge C S) (d : D) :
    ¬RefusesOrder (enter term runs statistics pointer postings leases m d).1 := by
  unfold enter
  split
  · exact not_refusesOrder_error nofun
  · dsimp only
    split <;> rename_i added
    · exact not_refusesOrder_of_eq (congrArg Prod.fst added) (accepts _ d)
    · split <;> rename_i requeued
      · exact not_refusesOrder_ok _
      · exact not_refusesOrder_of_eq (congrArg Prod.fst requeued)
          (not_refusesOrder (Schedule.quiet_requeueAll calm leases _))

theorem not_refusesOrder_writeGroup (calm : Calm C)
    (accepts : ∀ e (d : D), ¬RefusesOrder (Dictionary.add e d).1) {first : Lease C}
    {rest : List (Lease C)} {m : Merge C S}
    (stored : ∀ s, checkOrder (first :: rest) = .ok () → combineAll first rest = .ok s →
      ¬RefusesOrder (store first.term (first :: rest) m.sink).1) (d : D) :
    ¬RefusesOrder (writeGroup first rest m d).1 := by
  unfold writeGroup
  dsimp only
  split <;> rename_i checked
  · exact not_refusesOrder_checkOrder checked
  · split <;> rename_i combined
    · exact not_refusesOrder_combineAll combined
    · split <;> rename_i result
      · exact not_refusesOrder_of_eq (congrArg Prod.fst result) (stored _ checked combined)
      · exact not_refusesOrder_enter calm accepts _ d

theorem writeGroup_of_store {first : Lease C} {rest : List (Lease C)} {m : Merge C S}
    {s : TermStatistics} {e : Error} (checked : checkOrder (first :: rest) = .ok ())
    (combined : combineAll first rest = .ok s)
    (failed : (store first.term (first :: rest) m.sink).1 = .error e) (d : D) :
    (writeGroup first rest m d).1 = .error e := by
  unfold writeGroup
  dsimp only
  rw [checked, combined]
  dsimp only
  split <;> rename_i result <;> rw [result] at failed
  · exact congrArg Except.error (Except.error.inj failed)
  · cases failed

/-- Writing a group of runs one before another comes to what one of its cursors reports of a
document, or no order is refused, even if the cursors do not look at documents. -/
theorem writeGroup_unchecked (drains : Drains S)
    (accepts : ∀ e (d : D), ¬RefusesOrder (Dictionary.add e d).1)
    (apart : headers.Pairwise RunHeader.Before) {first : Lease StoredCursor}
    {rest : List (Lease StoredCursor)}
    (listed : ∀ lease ∈ first :: rest, lease.cursor.header ∈ headers)
    (m : Merge StoredCursor S) (m' : Merge UncheckedCursor S) (same : m'.sink = m.sink) (d : D) :
    (∃ lease ∈ first :: rest, ∃ e, (writeGroup first rest m d).1 = .error e ∧
        lease.cursor.header.Reports e) ∨
      ¬RefusesOrder (writeGroup first rest m d).1 ∧
        ¬RefusesOrder (writeGroup first.unchecked (rest.map Lease.unchecked) m' d).1 := by
  refine or_iff_not_imp_left.mpr fun unreported => ?_
  have stored : ∀ s, checkOrder (first :: rest) = .ok () → combineAll first rest = .ok s →
      ¬RefusesOrder (store first.term (first :: rest) m.sink).1 ∧
        ¬RefusesOrder (store first.term ((first :: rest).map Lease.unchecked) m.sink).1 := by
    intro s checked combined
    have ordered := inOrder_of_checkOrder apart listed checked
    rcases store_unchecked drains ordered first.term m.sink with
      ⟨e, failed, header, found, reports⟩ | accepted
    · obtain ⟨lease, member, rfl⟩ := List.mem_map.mp found
      exact (unreported ⟨lease, member, e, writeGroup_of_store checked combined failed d,
        reports⟩).elim
    · exact accepted
  refine ⟨not_refusesOrder_writeGroup StoredCursor.calm accepts ?_ d,
    not_refusesOrder_writeGroup UncheckedCursor.calm accepts ?_ d⟩
  · exact fun s checked combined => (stored s checked combined).1
  · intro s checked combined
    rw [same]
    rw [← List.map_cons, checkOrder_unchecked] at checked
    rw [combineAll_unchecked] at combined
    exact (stored s checked combined).2

/-- The merge of cursors that do not look at documents. -/
def unchecked (m : Merge StoredCursor S) : Merge UncheckedCursor S :=
  { m with schedule := m.schedule.unchecked }

theorem result_step {first : Lease C} {rest : List (Lease C)} {m : Merge C S}
    {schedule : Schedule C} (sound : m.isPoisoned = false)
    (popped : m.schedule.popGroup = some (first, rest, schedule)) (d : D) :
    (m.step d).1 = (writeGroup first rest { m with schedule } d).1 := by
  unfold step
  rw [if_neg (by simp [sound]), popped]
  dsimp only
  split <;> rename_i written
  · rw [written]
  · rw [written]
    split <;> rfl

/-- A merge that goes no further or has no more terms refuses no order. -/
theorem not_refusesOrder_step {m : Merge C S}
    (ended : m.isPoisoned = true ∨ m.schedule.popGroup = none) (d : D) :
    ¬RefusesOrder (m.step d).1 := by
  unfold step
  split
  · exact not_refusesOrder_error nofun
  · rename_i sound
    rw [ended.resolve_left sound]
    exact not_refusesOrder_error nofun

/-- A step comes to what a scheduled cursor reports of a document, or no order is refused, even if
the cursors do not look at documents. -/
theorem step_unchecked (drains : Drains S)
    (accepts : ∀ e (d : D), ¬RefusesOrder (Dictionary.add e d).1)
    (apart : headers.Pairwise RunHeader.Before) {m : Merge StoredCursor S}
    (listed : Schedule.Listed headers m.schedule.heap) (d : D) :
    (∃ lease ∈ m.schedule.heap.toList, ∃ e, (m.step d).1 = .error e ∧
        lease.cursor.header.Reports e) ∨
      ¬RefusesOrder (m.step d).1 ∧ ¬RefusesOrder (m.unchecked.step d).1 := by
  have same : m.unchecked.schedule.popGroup = _ := Schedule.popGroup_unchecked m.schedule
  cases poisoned : m.isPoisoned with
  | true =>
    have poisoned' : m.unchecked.isPoisoned = true := poisoned
    exact .inr ⟨not_refusesOrder_step (.inl poisoned) d, not_refusesOrder_step (.inl poisoned') d⟩
  | false =>
    have sound : m.unchecked.isPoisoned = false := poisoned
    cases popped : m.schedule.popGroup with
    | none =>
      rw [popped] at same
      exact .inr ⟨not_refusesOrder_step (.inr popped) d, not_refusesOrder_step (.inr same) d⟩
    | some group =>
      obtain ⟨first, rest, schedule⟩ := group
      rw [popped] at same
      have ⟨held, _⟩ := Schedule.Each.popGroup listed popped
      have written := writeGroup_unchecked drains accepts apart held { m with schedule }
        { m.unchecked with schedule := schedule.unchecked } rfl d
      rw [← result_step poisoned popped, ← result_step sound same] at written
      refine written.imp_left fun ⟨lease, member, reported⟩ => ⟨lease, ?_, reported⟩
      exact (Schedule.perm_popGroup popped).mem_iff.mp (List.mem_append_left _ member)

end Merge

end IndexMerge
