import IndexMerge.Proofs.Schedule.Opening
import IndexMerge.Proofs.Schedule.Untrusted
import IndexMerge.Run.Faulty

/-!
# How long a merge takes

A merge to the end calls one step after another (`Loop`). A step that succeeds consumes an entry of
the cursors that are scheduled and one that fails is the last one, so there are no more calls than
entries in the runs that were opened (`loop_of_rest`, `cost_start_le`). For files this is what their
headers say, whatever is in the files and whatever else fails (`loop_of_mergeRuns`).
-/

namespace IndexMerge

/-- If nothing more is found of each member of a list than it has, nothing more is found of all. -/
theorem total_filterMap_le {α β : Type} {find : α → Option β} {found : β → Nat} {has : α → Nat}
    (le : ∀ a b, find a = some b → found b ≤ has a) (list : List α) :
    total ((list.filterMap find).map found) ≤ total (list.map has) := by
  induction list with
  | nil => exact Nat.le_refl _
  | cons a list ih =>
    rw [List.filterMap_cons, List.map_cons, total_cons]
    split
    · exact Nat.le_add_left_of_le ih
    · rename_i b here
      exact Nat.add_le_add (le a b here) ih

namespace Schedule

variable {F C : Type} [RunCursor C]

theorem cost_eq_zero_iff {s : Schedule C} : s.cost = 0 ↔ s.isEmpty = true := by
  rw [isEmpty_iff]
  unfold cost
  cases s.heap.toList with
  | nil => exact iff_of_true rfl rfl
  | cons lease leases =>
    refine iff_of_false (fun none => ?_) (List.cons_ne_nil lease leases)
    rw [List.map_cons, total_cons, Lease.cost] at none
    omega

/-- The number of entries of the run with which an opener answered. -/
def offered : Except Error C → Nat
  | .ok cursor => RunCursor.entriesLeft cursor
  | .error _ => 0

/-- When all runs are opened, the cursors that are scheduled have no more entries than the runs. -/
theorem cost_start_le [RunOpener F C] {count : Nat} {opener after : F} {s : Schedule C}
    (started : start count opener = (.ok (), after, s)) {entries : Nat → Nat}
    (le : ∀ position, offered (answer (C := C) opener position) ≤ entries position) :
    s.cost ≤ total (s.journal.opened.map entries) := by
  have sound := (start_eq_ok_iff (C := C) count opener).mp (congrArg Prod.fst started)
  obtain ⟨_, ended, heap, given, positions, -⟩ := start_of_sound sound
  cases started.symm.trans ended
  rw [← journal_ledger, Ledger.opened_journal, given, positions, cost,
    total_perm (heap.map Lease.cost)]
  refine total_filterMap_le (fun position lease first => ?_) _
  obtain ⟨cursor, answered, -, advanced⟩ := first?_eq_some first
  have offers := le position
  rw [answered] at offers
  exact Nat.le_trans (RunCursor.entriesLeft_advance advanced) offers

end Schedule

namespace Merge

variable {F C S D : Type} [RunCursor C]

/-- A merge that was not given up is done when all entries were consumed. -/
theorem isDone_iff_cost {m : Merge C S} (sound : m.isPoisoned = false) :
    m.isDone = true ↔ m.schedule.cost = 0 := by
  rw [isDone, sound, Schedule.cost_eq_zero_iff]
  rfl

variable [PostingSink S] [Dictionary D]

/-- The calls that a merge to the end makes, and what it ends with: it asks whether it is done, and
makes a step if not, until it is done or a step fails. -/
inductive Loop : Merge C S → D → Nat → Except Error Unit × Merge C S × D → Prop
  | done {m : Merge C S} {dictionary : D} (ended : m.isDone = true) :
    Loop m dictionary 0 (.ok (), m, dictionary)
  | failed {m m' : Merge C S} {dictionary dictionary' : D} {e : Error} (running : m.isDone = false)
      (stepped : m.step dictionary = (.error e, m', dictionary')) :
    Loop m dictionary 1 (.error e, m', dictionary')
  | next {m m' : Merge C S} {dictionary dictionary' : D} {merged : MergedTerm} {calls : Nat}
      {outcome : Except Error Unit × Merge C S × D} (running : m.isDone = false)
      (stepped : m.step dictionary = (.ok merged, m', dictionary'))
      (more : Loop m' dictionary' calls outcome) : Loop m dictionary (calls + 1) outcome

/-- There is one way to go on. -/
theorem Loop.unique {m : Merge C S} {dictionary : D} {calls calls' : Nat}
    {outcome outcome' : Except Error Unit × Merge C S × D} (first : Loop m dictionary calls outcome)
    (second : Loop m dictionary calls' outcome') : calls = calls' ∧ outcome = outcome' := by
  induction first generalizing calls' with
  | done ended =>
    cases second with
    | done => exact ⟨rfl, rfl⟩
    | failed running | next running => cases ended.symm.trans running
  | failed running stepped =>
    cases second with
    | done ended => cases ended.symm.trans running
    | next _ stepped' => cases stepped.symm.trans stepped'
    | failed _ stepped' =>
      cases stepped.symm.trans stepped'
      exact ⟨rfl, rfl⟩
  | next running stepped _ ih =>
    cases second with
    | done ended => cases ended.symm.trans running
    | failed _ stepped' => cases stepped.symm.trans stepped'
    | next _ stepped' more =>
      cases stepped.symm.trans stepped'
      obtain ⟨rfl, rfl⟩ := ih more
      exact ⟨rfl, rfl⟩

/-- A merge makes no more calls than there are entries that its cursors did not consume. -/
theorem loop_of_rest {m : Merge C S} (sound : m.isPoisoned = false) (dictionary : D)
    (terms : Array MergedTerm) : ∃ calls ≤ m.schedule.cost, Loop m dictionary calls
      ((m.rest dictionary terms).1, (m.rest dictionary terms).2.2) := by
  fun_induction rest m dictionary terms with
  | case1 m dictionary terms done => exact ⟨0, Nat.zero_le _, .done done⟩
  | case2 m dictionary terms running merged m' dictionary' stepped ih =>
    obtain ⟨calls, le, more⟩ := ih (isPoisoned_step stepped)
    have less := cost_step stepped
    exact ⟨calls + 1, by omega, .next (Bool.eq_false_iff.mpr running) stepped more⟩
  | case3 m dictionary terms running e m' dictionary' failed =>
    -- the cursors that the failed step took stood on entries
    have some : m.schedule.cost ≠ 0 := fun none => running ((isDone_iff_cost sound).mpr none)
    exact ⟨1, Nat.one_le_iff_ne_zero.mpr some, .failed (Bool.eq_false_iff.mpr running) failed⟩

omit [PostingSink S] [Dictionary D] in
/-- A merge that was started can go on, and has no more to consume than the runs have. -/
theorem cost_start_le [RunOpener F C] {count interval : Nat} {opener after : F} {sink : S}
    {m : Merge C S} (started : start count opener sink interval = (.ok (), after, m))
    {entries : Nat → Nat}
    (le : ∀ position, Schedule.offered (Schedule.answer (C := C) opener position) ≤
      entries position) :
    m.isPoisoned = false ∧ m.schedule.cost ≤ total (m.schedule.journal.opened.map entries) := by
  unfold start at started
  split at started
  · cases started
  · rename_i after' s opened
    cases started
    refine ⟨rfl, ?_⟩
    show s.cost ≤ total ((s.ledger.tell _).journal.opened.map _)
    rw [Ledger.opened_journal, Ledger.given_tell, ← Ledger.opened_journal]
    exact Schedule.cost_start_le opened le

end Merge

section Files

variable {store : FileStore} {paths : Array String} {opener : FaultyOpener RunFiles}

/-- The number of terms that the header of a run file records. A file without a header has none. -/
def RunFiles.termCount (store : FileStore) (paths : Array String) (position : Nat) : Nat :=
  match paths[position]?.map (readHeader store) with
  | some (.ok header) => header.termCount.toNat
  | _ => 0

/-- The entries that scheduled cursors over files did not consume: those on which they stand, and
those ahead. -/
def unconsumed (s : Schedule (FaultyCursor StoredCursor)) : Nat :=
  total (s.heap.toList.map fun lease => lease.cursor.inner.remainingTerms + 1)

theorem cost_eq_unconsumed (s : Schedule (FaultyCursor StoredCursor)) : s.cost = unconsumed s := rfl

/-- Files that are opened stay where they are, whether or not something fails. -/
theorem store_openerBefore_faulty (kept : opener.inner.store = store ∧ opener.inner.paths = paths)
    (position : Nat) : (Schedule.openerBefore opener position).inner.store = store ∧
      (Schedule.openerBefore opener position).inner.paths = paths := by
  refine Schedule.openerBefore_keeps (P := fun opener : FaultyOpener RunFiles =>
    opener.inner.store = store ∧ opener.inner.paths = paths) (fun position opener kept => ?_) kept
    position
  have ⟨store, paths, _⟩ := RunFiles.store_openRun position opener.inner
  show (FaultyOpener.openRun position opener).2.2.inner.store = _ ∧
    (FaultyOpener.openRun position opener).2.2.inner.paths = _
  unfold FaultyOpener.openRun
  dsimp only
  split
  · exact kept
  · exact ⟨store.trans kept.1, paths.trans kept.2⟩

/-- A run has as many entries as the header of its file says. -/
theorem offered_le_termCount (kept : opener.inner.store = store ∧ opener.inner.paths = paths)
    (position : Nat) : Schedule.offered (Schedule.answer opener position) ≤
      RunFiles.termCount store paths position := by
  obtain ⟨rfl, rfl⟩ := store_openerBefore_faulty kept position
  show Schedule.offered
    (FaultyOpener.openRun position (Schedule.openerBefore opener position)).1 ≤ _
  generalize Schedule.openerBefore opener position = asked
  unfold FaultyOpener.openRun
  dsimp only
  split
  · exact Nat.zero_le _
  · cases answered : (RunFiles.openRun position asked.inner).1 with
    | error e => exact Nat.zero_le _
    | ok cursor =>
      obtain ⟨path, listed, opened⟩ := RunFiles.openFile_of_openRun answered
      rw [RunFiles.termCount, listed, Option.map_some, RunFiles.readHeader, opened]
      unfold RunFiles.openFile at opened
      split at opened
      · obtain ⟨_, _, -, rfl⟩ := StoredCursor.exists_of_start opened
        exact Nat.le_refl _
      · cases opened

end Files

/-- A merge of files ends, whatever the files hold, whatever the sink and the dictionary do, and
whatever fails. If it cannot be started, no step is called. Otherwise the calls that it makes are no
more than the terms that the headers of the opened files record, because a step that succeeds
consumes an entry, one that fails is the last one, and a merge that has consumed all entries is
done. -/
theorem loop_of_mergeRuns {S D : Type} [PostingSink S] [Dictionary D] (store : FileStore)
    (paths : Array String) (verify : Bool) (plans : Nat → FaultPlan) (count : Nat) (sink : S)
    (dictionary : D) :
    let opener : FaultyOpener RunFiles := ⟨RunFiles.start store paths verify, plans⟩
    let (begins, _, begun) := Merge.start count opener sink 0
    (∀ e, begins = .error e →
      mergeRuns count opener sink dictionary = (.error e, begun, dictionary)) ∧
    (begins = .ok () → ∃ calls result m dictionary',
      Merge.Loop begun dictionary calls (result, m, dictionary') ∧
      (∀ calls' outcome, Merge.Loop begun dictionary calls' outcome →
        calls' = calls ∧ outcome = (result, m, dictionary')) ∧
      calls ≤ total (begun.schedule.journal.opened.map (RunFiles.termCount store paths)) ∧
      (∀ e, result = .error e →
        mergeRuns count opener sink dictionary = (.error e, m.drop, dictionary')) ∧
      (result = .ok () → mergeRuns count opener sink dictionary =
        ((Merge.finish m).1, (Merge.finish m).2, dictionary'))) ∧
    ∀ m : Merge (FaultyCursor StoredCursor) S,
      (∀ (dictionary dictionary' : D) merged m',
        m.step dictionary = (.ok merged, m', dictionary') →
        unconsumed m'.schedule < unconsumed m.schedule) ∧
      (m.isPoisoned = false → (m.isDone = true ↔ unconsumed m.schedule = 0)) := by
  intro opener
  rcases started : Merge.start count opener sink 0 with ⟨begins, after, begun⟩
  refine ⟨fun e failed => ?_, fun succeeds => ?_, fun m => ⟨fun _ _ _ m' stepped => ?_,
    fun sound => ?_⟩⟩
  · rw [mergeRuns, started, failed]
  · subst succeeds
    obtain ⟨sound, counted⟩ := Merge.cost_start_le started
      (offered_le_termCount ⟨rfl, rfl⟩)
    obtain ⟨calls, le, loop⟩ := Merge.loop_of_rest sound dictionary #[]
    rcases ended : begun.rest dictionary #[] with ⟨result, terms, m, dictionary'⟩
    rw [ended] at loop
    refine ⟨calls, result, m, dictionary', loop, fun _ _ other => other.unique loop,
      Nat.le_trans le counted, fun e failed => ?_, fun done => ?_⟩
    · rw [mergeRuns, started]
      dsimp only
      rw [ended, failed]
    · rw [mergeRuns, started]
      dsimp only
      rw [ended, done]
      rfl
  · rw [← cost_eq_unconsumed, ← cost_eq_unconsumed]
    exact Merge.cost_step stepped
  · rw [← cost_eq_unconsumed]
    exact Merge.isDone_iff_cost sound

end IndexMerge
