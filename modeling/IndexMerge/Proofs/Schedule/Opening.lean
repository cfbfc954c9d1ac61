import IndexMerge.Proofs.Schedule.Steady
import IndexMerge.Run.Faulty
import Mathlib.Data.Nat.Find

/-!
# Opening all runs or none

Each run that is opened for a schedule either has a fault, which is known from what the opener
answers and from its cursor (`Fault`), or its cursor is scheduled at the first entry, or released if
there is none (`openRun_of_sound`). So runs are opened up to the first fault, and then all cursors
are given up (`openRuns_of_fault`), or all are opened (`openRuns_of_sound`). What else fails while
they are given up shows in no result (`start_of_faults`).
-/

namespace IndexMerge.Schedule

variable {F C : Type} [RunCursor C]

/-- Why the run at a position cannot be scheduled, where an opener gave this answer: it was not
opened, its cursor is of another run, it has no entries and its cursor fails to close, or its cursor
does not get to its first entry. -/
inductive Fault (position : Nat) : Except Error C → Error → Prop
  | opening (e : Error) : Fault position (.error e) e
  | number {cursor : C} (differ : RunCursor.runIndex cursor ≠ position) :
    Fault position (.ok cursor) (.violation (.wrongCursor (RunCursor.runIndex cursor) position))
  | closing {cursor : C} {e : Error} (number : RunCursor.runIndex cursor = position)
      (ended : RunCursor.hasNext cursor = false)
      (failed : (RunCursor.close cursor).1 = .error e) : Fault position (.ok cursor) e
  | advancing {cursor : C} {e : Error} (number : RunCursor.runIndex cursor = position)
      (more : RunCursor.hasNext cursor = true)
      (failed : (RunCursor.advance cursor).1 = .error e) : Fault position (.ok cursor) e

/-- The lease at the first entry of the run with which an opener answered, if it has entries. -/
def first? (position : Nat) : Except Error C → Option (Lease C)
  | .ok cursor => Lease.next? ⟨position, cursor⟩
  | .error _ => none

theorem first?_eq_some {position : Nat} {answered : Except Error C} {lease : Lease C}
    (first : first? position answered = some lease) :
    ∃ cursor, answered = .ok cursor ∧ lease.position = position ∧
      RunCursor.advance cursor = (.ok (), lease.cursor) := by
  unfold first? at first
  split at first
  · rename_i cursor
    unfold Lease.next? at first
    split at first
    · split at first <;> rename_i advanced <;> cases first
      exact ⟨cursor, rfl, rfl, advanced⟩
    · cases first
  · cases first

/-- The cursor of the run with which an opener answered, as closing leaves it, if the run has no
entries. -/
def closed? (position : Nat) : Except Error C → Option (Nat × C)
  | .ok cursor => if RunCursor.hasNext cursor then none else some (Lease.closed ⟨position, cursor⟩)
  | .error _ => none

section Enlisting

variable (lease : Lease C) {e : Error}

theorem enlist_of_fault (fault : Fault lease.position (.ok lease.cursor) e) (s : Schedule C) :
    (enlist lease s).1 = .error e := by
  unfold enlist
  cases fault with
  | number differ =>
    have differ : lease.runIndex ≠ lease.position := differ
    rw [if_pos differ]
    rfl
  | closing number ended failed =>
    have number : lease.runIndex = lease.position := number
    rw [if_neg (not_not_intro number), if_pos (by rw [ended]; rfl)]
    exact failed
  | advancing number more failed =>
    have number : lease.runIndex = lease.position := number
    rw [if_neg (not_not_intro number), if_neg (by rw [more]; exact Bool.false_ne_true)]
    split <;> rename_i advanced <;> rw [advanced] at failed
    · cases failed
    · exact failed

/-- A cursor without a fault is scheduled at its first entry, or closed if it has none. -/
theorem enlist_of_sound (sound : ∀ e, ¬Fault lease.position (.ok lease.cursor) e)
    (s : Schedule C) : ∃ s', enlist lease s = (.ok (), s') ∧
      s'.heap.toList.Perm (lease.next?.toList ++ s.heap.toList) ∧
      s'.ledger.left = s.ledger.left ++ (closed? lease.position (.ok lease.cursor)).toList := by
  have number : lease.runIndex = lease.position :=
    Decidable.of_not_not fun differ => sound _ (.number differ)
  unfold enlist Lease.next? closed?
  rw [if_neg (not_not_intro number)]
  dsimp only
  cases more : RunCursor.hasNext lease.cursor with
  | false =>
    cases closed : (RunCursor.close lease.cursor).1 with
    | error e => exact absurd (.closing number more closed) (sound e)
    | ok _ =>
      exact ⟨_, Prod.ext closed rfl, .refl _,
        (Lease.left_release ..).trans (congrArg (· ++ _) (Ledger.left_tell ..))⟩
  | true =>
    rcases advanced : RunCursor.advance lease.cursor with ⟨e | _, next⟩
    · exact absurd (.advancing number more (congrArg Prod.fst advanced)) (sound e)
    · exact ⟨_, rfl, Heap.items_push _ _, (List.append_nil _).symm⟩

end Enlisting

variable [RunOpener F C]

omit [RunOpener F C] in
/-- No cursor is left for what is told. -/
theorem left_foldl_tell (notices : List Notice) (s : Schedule C) :
    (notices.foldl tell s).ledger.left = s.ledger.left := by
  induction notices generalizing s with
  | nil => rfl
  | cons notice notices ih => exact (ih (s.tell notice)).trans (Ledger.left_tell ..)

/-- The run at a position has no fault when it is opened behind those before it. -/
def Sound (opener : F) (position : Nat) : Prop :=
  ∀ e, ¬Fault position (answer (C := C) opener position) e

variable {opener : F} {position count failed : Nat} {e : Error}

theorem openRun_of_fault (fault : Fault position (answer (C := C) opener position) e)
    (s : Schedule C) :
    (openRun position (openerBefore opener position) s).1 = .error e := by
  unfold answer at fault
  unfold openRun
  generalize RunOpener.openRun position (openerBefore opener position) = opened at fault ⊢
  obtain ⟨_ | cursor, notices, opener'⟩ := opened
  · cases fault
    rfl
  · exact enlist_of_fault ⟨position, cursor⟩ fault _

theorem openRun_of_sound (sound : Sound (C := C) opener position) (s : Schedule C) :
    ∃ s', openRun position (openerBefore opener position) s =
        (.ok (), openerBefore opener (position + 1), s') ∧
      s'.heap.toList.Perm
        ((first? position (answer opener position)).toList ++ s.heap.toList) ∧
      s'.ledger.left = s.ledger.left ++ (closed? position (answer opener position)).toList := by
  unfold Sound answer at sound
  unfold openRun answer
  rw [openerBefore]
  generalize RunOpener.openRun position (openerBefore opener position) = opened at sound ⊢
  obtain ⟨e | cursor, notices, opener'⟩ := opened
  · exact absurd (.opening e) (sound e)
  · obtain ⟨s', enlisted, heap, left⟩ := enlist_of_sound ⟨position, cursor⟩ sound
      { notices.foldl tell s with
        ledger := (notices.foldl tell s).ledger.record (.opened position cursor) }
    rw [Ledger.left_record_opened, left_foldl_tell] at left
    rw [heap_foldl_tell] at heap
    exact ⟨s', by dsimp only; rw [enlisted], heap, left⟩

/-- Runs without a fault are all opened: those with entries are scheduled at their first ones, and
the cursors of the others are closed. -/
theorem openRuns_of_sound (position count : Nat) (sound : ∀ k, position ≤ k → k < position + count →
      Sound (C := C) opener k) (s : Schedule C) :
    ∃ s', openRuns count position (openerBefore opener position) s =
        (.ok (), openerBefore opener (position + count), s') ∧
      s'.heap.toList.Perm (((List.range' position count).filterMap fun k =>
        first? k (answer opener k)) ++ s.heap.toList) ∧
      s'.ledger.left = s.ledger.left ++
        (List.range' position count).filterMap fun k => closed? k (answer opener k) := by
  induction count generalizing position s with
  | zero => exact ⟨s, rfl, .refl _, (List.append_nil _).symm⟩
  | succ count ih =>
    obtain ⟨s₁, first, heap, left⟩ :=
      openRun_of_sound (sound position (Nat.le_refl _) (by omega)) s
    obtain ⟨s₂, others, heap', left'⟩ :=
      ih (position + 1) (fun k le lt => sound k (by omega) (by omega)) s₁
    refine ⟨s₂, ?_, ?_, ?_⟩
    · rw [openRuns, first]
      rw [Nat.add_right_comm] at others
      exact others
    · refine (heap'.trans (heap.append_left _)).trans ?_
      rw [List.range'_succ, List.filterMap_cons]
      cases first? position (answer opener position) with
      | none => exact .refl _
      | some lease => exact List.perm_middle
    · rw [left', left, List.append_assoc, List.range'_succ, List.filterMap_cons]
      cases closed? position (answer (C := C) opener position) <;> rfl

/-- Runs are opened up to the first fault. Whether the cursors before it can be released changes
nothing. -/
theorem openRuns_of_fault (position : Nat) (fault : Fault failed (answer (C := C) opener failed) e)
    (le : position ≤ failed) (lt : failed < position + count)
    (sound : ∀ k, position ≤ k → k < failed → Sound (C := C) opener k) (s : Schedule C) :
    ∃ s', openRuns count position (openerBefore opener position) s =
      (.error (.initialization failed e), openerBefore opener (failed + 1), s') := by
  induction count generalizing position s with
  | zero => omega
  | succ count ih =>
    rcases Nat.eq_or_lt_of_le le with rfl | less
    · have result := openRun_of_fault fault s
      have next := opener_openRun position (openerBefore opener position) s
      unfold openRuns
      generalize openRun position (openerBefore opener position) s = outcome at result next ⊢
      obtain ⟨_, opener', s'⟩ := outcome
      obtain rfl : _ = Except.error e := result
      obtain rfl : opener' = openerBefore opener (position + 1) := next
      dsimp only
      rcases releaseAll s' with ⟨_ | _, s''⟩
      · exact ⟨_, rfl⟩
      · exact ⟨_, rfl⟩
    · obtain ⟨s₁, first, -⟩ := openRun_of_sound (sound position (Nat.le_refl _) less) s
      obtain ⟨s₂, others⟩ :=
        ih (position + 1) less (by omega) (fun k le lt => sound k (by omega) lt) s₁
      exact ⟨s₂, by rw [openRuns, first]; exact others⟩

omit [RunCursor C] in
/-- An opener that notes the runs for which it is asked has noted those before a position. -/
theorem note_openerBefore {note : F → List Nat}
    (notes : ∀ position opener,
      note (RunOpener.openRun position opener).2.2 = note opener ++ [position])
    (opener : F) (position : Nat) :
    note (openerBefore opener position) = note opener ++ List.range position := by
  induction position with
  | zero => exact (List.append_nil _).symm
  | succ position ih =>
    rw [openerBefore, notes, ih, List.range_succ, List.append_assoc]

theorem Sound.isOk (sound : Sound (C := C) opener position) :
    (answer (C := C) opener position).isOk = true := by
  unfold Sound at sound
  cases answered : answer (C := C) opener position with
  | ok _ => rfl
  | error e => exact absurd (answered ▸ .opening e) (sound e)

/-- Runs without a fault are all opened, one at each position. -/
theorem start_of_sound (sound : ∀ position < count, Sound (C := C) opener position) :
    ∃ s : Schedule C, start count opener = (.ok (), openerBefore opener count, s) ∧
      s.heap.toList.Perm ((List.range count).filterMap fun k => first? k (answer opener k)) ∧
      s.ledger.given = givenBefore opener count ∧
      (givenBefore (C := C) opener count).map Prod.fst = List.range count ∧
      s.ledger.left = (List.range count).filterMap fun k => closed? k (answer opener k) := by
  obtain ⟨s, started, heap, left⟩ := openRuns_of_sound 0 count
    (fun k _ lt => sound k (by omega)) (empty (C := C))
  have custody := custody_start (C := C) count opener
  rw [Nat.zero_add] at started
  rw [← List.range_eq_range'] at heap left
  rw [show start count opener = _ from started] at custody
  refine ⟨s, started, ?_, custody.1.given_eq, ?_, left⟩
  · rwa [show (empty (C := C)).heap.toList = [] from rfl, List.append_nil] at heap
  · rw [positions_givenBefore, List.filter_eq_self]
    exact fun position member => (sound position (List.mem_range.mp member)).isOk

/-- At the first fault all cursors that were given are closed. -/
theorem start_of_fault (lt : failed < count)
    (fault : Fault failed (answer (C := C) opener failed) e)
    (sound : ∀ earlier < failed, Sound (C := C) opener earlier) :
    ∃ s : Schedule C, start count opener =
        (.error (.initialization failed e), openerBefore opener (failed + 1), s) ∧
      s.ClosedAll (givenBefore opener (failed + 1)) := by
  obtain ⟨s, started⟩ : ∃ s : Schedule C, start count opener = (_, _, s) :=
    openRuns_of_fault 0 fault (Nat.zero_le _) (by omega) (fun earlier _ less => sound earlier less)
      empty
  have custody := custody_start (C := C) count opener
  rw [started] at custody
  have kept : Custody (givenBefore opener (failed + 1)) s [] := custody.1
  have unscheduled : s.heap.toList = [] := custody.2 nofun
  exact ⟨s, started, kept.closedAll unscheduled⟩

/-- If not all runs are without faults, one of them has the first fault. -/
theorem exists_first_fault (faulty : ¬∀ position < count, Sound (C := C) opener position) :
    ∃ failed < count, (∃ e, Fault failed (answer (C := C) opener failed) e) ∧
      ∀ earlier < failed, Sound (C := C) opener earlier := by
  classical
  have some : ∃ position, position < count ∧ ¬Sound (C := C) opener position := by
    simpa only [not_forall, exists_prop] using faulty
  obtain ⟨lt, unsound⟩ := Nat.find_spec some
  refine ⟨Nat.find some, lt, ?_, fun earlier less => ?_⟩
  · simpa only [Sound, not_forall, not_not] using unsound
  · by_contra unsound
    exact Nat.find_min some less ⟨Nat.lt_trans less lt, unsound⟩

theorem start_eq_ok_iff (count : Nat) (opener : F) :
    (start (C := C) count opener).1 = .ok () ↔
      ∀ position < count, Sound (C := C) opener position := by
  constructor
  · intro started
    by_contra faulty
    obtain ⟨failed, lt, ⟨e, fault⟩, before⟩ := exists_first_fault faulty
    obtain ⟨s, ended, -⟩ := start_of_fault lt fault before
    rw [ended] at started
    cases started
  · intro sound
    obtain ⟨s, started, -⟩ := start_of_sound sound
    rw [started]

/-- Starting succeeds just if no run has a fault. Otherwise it fails with the first fault and names
its run: the opener was asked for the runs up to this one, each cursor that it gave was closed once
and then left, and whether this succeeded shows in no result. If it succeeds, the opener was asked
for all runs and gave a cursor for each, those with entries are scheduled at their first ones, and
only the cursors of the others were closed. -/
theorem start_of_faults (count : Nat) (opener : F) :
    let (result, after, s) := start (C := C) count opener
    (result = .ok () ↔ ∀ position < count, Sound (C := C) opener position) ∧
    (∀ position < count, ∀ e, Fault position (answer (C := C) opener position) e →
      (∀ earlier < position, Sound (C := C) opener earlier) →
      result = .error (.initialization position e) ∧
      after = openerBefore opener (position + 1) ∧
      (∀ note : F → List Nat,
        (∀ k o, note (RunOpener.openRun k o).2.2 = note o ++ [k]) →
        note after = note opener ++ List.range (position + 1)) ∧
      ((givenBefore (C := C) opener (position + 1)).map Prod.fst).Nodup ∧
      s.ClosedAll (givenBefore opener (position + 1))) ∧
    (result = .ok () →
      after = openerBefore opener count ∧
      s.ledger.given = givenBefore opener count ∧
      (givenBefore (C := C) opener count).map Prod.fst = List.range count ∧
      s.ledger.left = (List.range count).filterMap (fun k => closed? k (answer opener k)) ∧
      s.heap.toList.Perm
        ((List.range count).filterMap fun k => first? k (answer opener k))) := by
  have succeeds := start_eq_ok_iff (C := C) count opener
  rcases started : start (C := C) count opener with ⟨result, after, s⟩
  rw [started] at succeeds
  refine ⟨succeeds, fun position lt e fault before => ?_, fun done => ?_⟩
  · obtain ⟨_, failed, closed⟩ := start_of_fault lt fault before
    cases started.symm.trans failed
    exact ⟨rfl, rfl, fun note notes => note_openerBefore notes opener _, nodup_givenBefore _ _,
      closed⟩
  · obtain ⟨_, ended, heap, given, positions, left⟩ := start_of_sound (succeeds.mp done)
    cases started.symm.trans ended
    exact ⟨rfl, given, positions, left, heap⟩

/-- Four runs of which the second one is empty. The third one cannot be read and the fourth one
cannot be opened, and the first one cannot be closed. -/
def brokenRuns : FaultyOpener (Array Run) :=
  let layout : Layout := ⟨0, false⟩
  let postings : List Posting := [⟨1, 1, [], []⟩]
  let full (index : Nat) : Run := ⟨index, layout, #[⟨[97], .ofPostings layout postings, postings⟩]⟩
  ⟨#[full 0, .empty 1 layout, full 2, full 3], fun position => { FaultPlan.none with
    failsClose := position == 0
    failsAdvance := fun _ => position == 2
    failsOpen := position == 3 }⟩

/-- The failure is that of the third run, the fourth one is not opened, and that closing the first
one failed is only told. The cursors of the three runs that were opened are closed. -/
theorem start_of_faults_broken :
    let (result, after, s) := start 4 brokenRuns
    result = .error (.initialization 2 (.io "run read" .deviceLost)) ∧
      after = openerBefore brokenRuns 3 ∧ s.heap.toList = [] ∧
      (s.ledger.left.map Prod.fst).Perm [0, 1, 2] ∧
      s.ledger.left.map (fun place => (place.1, place.2.inner.isClosed)) =
        [(1, true), (2, true), (0, true)] := by
  have fault : Fault 2 (answer brokenRuns 2) (.io "run read" .deviceLost) :=
    .advancing (by decide) (by decide) rfl
  have sound : ∀ earlier < 2, Sound brokenRuns earlier := by
    intro earlier less e fault
    match earlier, less with
    | 0, _ => cases fault with
      | number differ => exact differ rfl
      | closing _ ended => cases ended
      | advancing _ _ failed => cases failed
    | 1, _ => cases fault with
      | number differ => exact differ rfl
      | closing _ _ failed => cases failed
      | advancing _ more => cases more
  have ⟨failed, after, _, _, closed⟩ :=
    (start_of_faults 4 brokenRuns).2.1 2 (by decide) _ fault sound
  have given : (givenBefore brokenRuns 3).map Prod.fst = [0, 1, 2] := by decide
  exact ⟨failed, after, closed.unscheduled, given ▸ closed.positions, by decide +kernel⟩

end IndexMerge.Schedule
