import IndexMerge.Proofs.Merge.Custody
import IndexMerge.Proofs.Merge.Each
import IndexMerge.Proofs.Merge.Step
import IndexMerge.Proofs.Merge.Unchecked

/-!
# Merges in lockstep

Two merges of the same cursors are compared that write to different sinks and dictionaries. If the
sinks fail alike and otherwise store the same lists, at whatever places, and the dictionaries answer
alike to entries that differ in these places only (`Lockstep`), then every step of the merges comes
to the same, apart from the places (`InStep.step`), and so does merging to the end (`InStep.rest`).
-/

namespace IndexMerge

open PostingSource

/-- Two results agree: they are the same failure, or values that belong together. -/
inductive Agree {α β : Type} (V : α → β → Prop) : Except Error α → Except Error β → Prop
  | failed (e : Error) : Agree V (.error e) (.error e)
  | ok {a : α} {b : β} (together : V a b) : Agree V (.ok a) (.ok b)

theorem Agree.eq_error {α β : Type} {V : α → β → Prop} {left : Except Error α}
    {right : Except Error β} {e : Error} (h : Agree V left right) (failed : left = .error e) :
    right = .error e := by
  cases h with
  | failed e' => rw [Except.error.inj failed]
  | ok together => cases failed

/-- A merged term without the place of its list. -/
def MergedTerm.unplaced (t : MergedTerm) : MergedTerm :=
  { t with statistics := { t.statistics with pointer := none } }

/-- Two merged terms that differ in the places of their lists only. -/
def MergedTerm.Alike (t t' : MergedTerm) : Prop := t.unplaced = t'.unplaced

/-- An entry with the place of its list. -/
def LexiconEntry.at (e : LexiconEntry) (place : BitPosition) : LexiconEntry :=
  { e with statistics := { e.statistics with pointer := some place } }

variable {F C S S' D D' : Type} [RunCursor C] [PostingSink S] [PostingSink S'] [Dictionary D]
  [Dictionary D']

/-- Cursors of a kind give only postings that are taken, and stay of this kind. -/
structure Supplies (C : Type) [RunCursor C] (takes : Posting → Prop) (K : C → Prop) : Prop extends
    Lasting C K where
  given : ∀ {c c' : C} {p : Posting}, K c → RunCursor.nextPosting c = (.ok (some p), c') → takes p

/-- Sinks and dictionaries go on alike. From a source that gives only postings that are taken the
sinks store the same list, or they fail alike. The dictionaries answer alike to an entry for a list
that was stored. -/
structure Lockstep (takes : Posting → Prop) (R : S → D → S' → D' → Prop)
    (Has : S → S' → BitPosition → BitPosition → List Posting → Prop) : Prop where
  source : ∀ {σ : Type} [PostingSource σ] {may : σ → Posting → Prop}, MayGive may →
    ∀ {source : σ}, (∀ p, may source p → takes p) → ∀ {s : S} {d : D} {s' : S'} {d' : D'},
    R s d s' d' → (PostingSink.write source s').2.1 = (PostingSink.write source s).2.1
  write : ∀ {σ : Type} [PostingSource σ] {may : σ → Posting → Prop}, MayGive may →
    ∀ {source : σ}, (∀ p, may source p → takes p) → ∀ {s : S} {d : D} {s' : S'} {d' : D'},
    R s d s' d' → R (PostingSink.write source s).2.2 d (PostingSink.write source s').2.2 d' ∧
      Agree (fun place place' => ∃ list, Yields source list (PostingSink.write source s).2.1 ∧
        Has (PostingSink.write source s).2.2 (PostingSink.write source s').2.2 place place' list)
        (PostingSink.write source s).1 (PostingSink.write source s').1
  add : ∀ {s : S} {d : D} {s' : S'} {d' : D'} {place place' : BitPosition} {list : List Posting}
    {e : LexiconEntry}, R s d s' d' → Has s s' place place' list →
    e.statistics.documentFrequency.toNat = list.length →
    (Dictionary.add (e.at place) d).1 = (Dictionary.add (e.at place') d').1 ∧
      R s (Dictionary.add (e.at place) d).2 s' (Dictionary.add (e.at place') d').2

namespace Merge

variable {takes : Posting → Prop} {K : C → Prop} {R : S → D → S' → D' → Prop}
  {Has : S → S' → BitPosition → BitPosition → List Posting → Prop}

section Storing

variable {s : S} {d : D} {s' : S'} {d' : D'} {leases : List (Lease C)}

omit [PostingSink S] [PostingSink S'] [Dictionary D] [Dictionary D'] in
/-- What the cursors of a kind give together is taken. -/
theorem mayGive_row (supplies : Supplies C takes K) :
    MayGive fun (t : CountedPostings (PostingSequence (Lease C))) p =>
      ∃ lease ∈ t.inner.sources, K lease.cursor → takes p := by
  have single : MayGive fun (lease : Lease C) p => K lease.cursor → takes p := by
    constructor
    · intro lease lease' p given kind
      have given : (RunCursor.nextPosting lease.cursor).1 = .ok (some p) := congrArg Prod.fst given
      exact supplies.given kind (Prod.ext given rfl)
    · intro lease p later kind
      exact later (supplies.nextPosting kind)
  exact CountedPostings.mayGive (PostingSequence.mayGive single)

omit [PostingSink S] [PostingSink S'] [Dictionary D] [Dictionary D'] in
theorem takes_row (supplies : Supplies C takes K) (kind : ∀ lease ∈ leases, K lease.cursor)
    (p : Posting) (found : ∃ lease ∈ (row leases).inner.sources, K lease.cursor → takes p) :
    takes p := by
  obtain ⟨opened, member, given⟩ := found
  rw [row, PostingSequence.sources_ofList] at member
  obtain ⟨lease, held, rfl⟩ := List.mem_map.mp member
  exact given (supplies.openPostings (kind lease held))

/-- Storing the postings of cursors on both sides leaves the same cursors, and either fails alike or
stores the same list, which has as many postings as the cursors announce. -/
theorem store_lockstep (lockstep : Lockstep takes R Has) (supplies : Supplies C takes K)
    (kind : ∀ lease ∈ leases, K lease.cursor) (related : R s d s' d') (term : Term) :
    (store term leases s').2.1 = (store term leases s).2.1 ∧
      R (store term leases s).2.2 d (store term leases s').2.2 d' ∧
      Agree (fun place place' => ∃ list, list.length = announced leases ∧
        Has (store term leases s).2.2 (store term leases s').2.2 place place' list)
        (store term leases s).1 (store term leases s').1 := by
  have given := mayGive_row supplies
  have taken := takes_row supplies kind
  have source := lockstep.source given taken related
  obtain ⟨still, agree⟩ := lockstep.write given taken related
  unfold store
  rw [← row]
  dsimp only
  generalize PostingSink.write (row leases) s = left at source still agree ⊢
  generalize PostingSink.write (row leases) s' = right at source still agree ⊢
  obtain ⟨result, t, sink⟩ := left
  obtain ⟨result', t', sink'⟩ := right
  obtain rfl : t' = t := source
  cases agree with
  | failed e => exact ⟨rfl, still, .failed e⟩
  | ok together =>
    obtain ⟨list, yields, has⟩ := together
    have count : t'.count = list.length := by
      rw [CountedPostings.count_of_yields yields]
      exact Nat.zero_add _
    dsimp only
    by_cases counted : t'.count = announced leases
    · rw [if_pos counted, if_pos counted]
      exact ⟨rfl, still, .ok ⟨list, count.symm.trans counted, has⟩⟩
    · rw [if_neg counted, if_neg counted]
      exact ⟨rfl, still, .failed _⟩

end Storing

/-- Two merges of the same cursors have come equally far. -/
structure InStep (R : S → D → S' → D' → Prop) (m : Merge C S) (d : D)
    (m' : Merge C S') (d' : D') : Prop where
  heap : m.schedule.heap = m'.schedule.heap
  progress : m.progress = m'.progress
  isPoisoned : m.isPoisoned = m'.isPoisoned
  related : R m.sink d m'.sink d'

section Steps

variable {m : Merge C S} {d : D} {m' : Merge C S'} {d' : D'} {leases : List (Lease C)}

omit [PostingSink S] [PostingSink S'] [Dictionary D] [Dictionary D'] in
theorem InStep.fail (h : InStep R m d m' d') (e : Error) (leases : List (Lease C)) :
    Agree MergedTerm.Alike (Merge.fail e leases m d).1 (Merge.fail e leases m' d').1 ∧
      InStep R (Merge.fail e leases m d).2.1 (Merge.fail e leases m d).2.2
        (Merge.fail e leases m' d').2.1 (Merge.fail e leases m' d').2.2 :=
  ⟨.failed e, h.heap, h.progress, h.isPoisoned, h.related⟩

/-- Entering a term for a list that was stored on both sides. -/
theorem InStep.enter (h : InStep R m d m' d') (lockstep : Lockstep takes R Has)
    (leases : List (Lease C)) (term : Term) (runs : List Nat) {statistics : TermStatistics}
    {place place' : BitPosition} {list : List Posting} (has : Has m.sink m'.sink place place' list)
    (length : statistics.documentFrequency.toNat = list.length) (postings : Nat) :
    let left := Merge.enter term runs statistics place postings leases m d
    let right := Merge.enter term runs statistics place' postings leases m' d'
    Agree MergedTerm.Alike left.1 right.1 ∧ InStep R left.2.1 left.2.2 right.2.1 right.2.2 := by
  unfold Merge.enter
  rw [← h.progress]
  by_cases full : UInt32.size ≤ m.progress.terms
  · rw [if_pos full, if_pos full]
    exact h.fail _ leases
  · rw [if_neg full, if_neg full]
    let id := UInt32.ofNat m.progress.terms
    let e : LexiconEntry := ⟨term, { statistics with termId := some id }⟩
    obtain ⟨answer, related⟩ := lockstep.add (e := e) h.related has length
    have entry : ∀ place, (⟨term, { statistics with termId := some id, pointer := some place }⟩ :
        LexiconEntry) = e.at place := fun _ => rfl
    dsimp only
    rw [entry, entry]
    generalize Dictionary.add (e.at place) d = left at answer related ⊢
    generalize Dictionary.add (e.at place') d' = right at answer related ⊢
    obtain ⟨result, entered⟩ := left
    obtain ⟨result', entered'⟩ := right
    obtain rfl : result = result' := answer
    cases result with
    | error error =>
      exact InStep.fail ⟨h.heap, h.progress, h.isPoisoned, related⟩ error leases
    | ok done =>
      obtain ⟨ledger, counted⟩ := count_eq m
        ⟨term, id, runs, { statistics with termId := some id, pointer := some place }⟩ place
        postings
      obtain ⟨ledger', counted'⟩ := count_eq m'
        ⟨term, id, runs, { statistics with termId := some id, pointer := some place' }⟩ place'
        postings
      dsimp only
      rw [counted, counted', ← h.progress]
      dsimp only
      obtain ⟨answer, heap⟩ := Schedule.requeueAll_congr (s := { m.schedule with ledger })
        (t := { m'.schedule with ledger := ledger' }) h.heap leases
      generalize Schedule.requeueAll leases { m.schedule with ledger } = left
        at answer heap ⊢
      generalize Schedule.requeueAll leases { m'.schedule with ledger := ledger' } = right
        at answer heap ⊢
      obtain ⟨result, schedule⟩ := left
      obtain ⟨result', schedule'⟩ := right
      obtain rfl : result = result' := answer
      cases result with
      | error error => exact ⟨.failed error, heap, rfl, h.isPoisoned, related⟩
      | ok done => exact ⟨.ok rfl, heap, rfl, h.isPoisoned, related⟩

/-- Writing a group on both sides. -/
theorem InStep.writeGroup (h : InStep R m d m' d') (lockstep : Lockstep takes R Has)
    (supplies : Supplies C takes K) {first : Lease C} {rest : List (Lease C)}
    (kind : ∀ lease ∈ first :: rest, K lease.cursor) :
    let left := Merge.writeGroup first rest m d
    let right := Merge.writeGroup first rest m' d'
    Agree MergedTerm.Alike left.1 right.1 ∧ InStep R left.2.1 left.2.2 right.2.1 right.2.2 := by
  unfold Merge.writeGroup
  dsimp only
  cases checkOrder (first :: rest) with
  | error e => exact h.fail e _
  | ok checked =>
    cases combined : combineAll first rest with
    | error e => exact h.fail e _
    | ok statistics =>
      have announces := documentFrequency_combineAll combined
      obtain ⟨read, related, agree⟩ :=
        store_lockstep lockstep supplies kind h.related first.term
      dsimp only
      generalize store first.term (first :: rest) m.sink = left at read related agree ⊢
      generalize store first.term (first :: rest) m'.sink = right at read related agree ⊢
      obtain ⟨result, leases, sink⟩ := left
      obtain ⟨result', leases', sink'⟩ := right
      obtain rfl : leases' = leases := read
      have still : InStep R { m with sink } d { m' with sink := sink' } d' :=
        ⟨h.heap, h.progress, h.isPoisoned, related⟩
      cases agree with
      | failed e => exact still.fail e _
      | ok together =>
        obtain ⟨list, length, has⟩ := together
        exact still.enter lockstep leases' first.term _ has (announces.trans length.symm) _

/-- Every step comes to the same on both sides, apart from the place of the list. -/
theorem InStep.step (h : InStep R m d m' d') (lockstep : Lockstep takes R Has)
    (supplies : Supplies C takes K) (kind : m.Each K) :
    Agree MergedTerm.Alike (m.step d).1 (m'.step d').1 ∧
      InStep R (m.step d).2.1 (m.step d).2.2 (m'.step d').2.1 (m'.step d').2.2 := by
  have both := h.isPoisoned
  unfold Merge.step
  by_cases poisoned : m.isPoisoned = true
  · rw [if_pos poisoned, if_pos (both ▸ poisoned)]
    exact ⟨.failed _, h⟩
  rw [if_neg poisoned, if_neg (both ▸ poisoned)]
  obtain ⟨none, none'⟩ | ⟨first, rest, schedule, schedule', popped, popped', heap⟩ :=
    Schedule.popGroup_congr h.heap
  · rw [none, none']
    exact ⟨.failed _, h⟩
  rw [popped, popped']
  obtain ⟨held, -⟩ := Schedule.Each.popGroup kind popped
  have taken : InStep R { m with schedule } d { m' with schedule := schedule' } d' :=
    ⟨heap, h.progress, h.isPoisoned, h.related⟩
  obtain ⟨agree, after⟩ := taken.writeGroup lockstep supplies held
  dsimp only at agree after ⊢
  generalize Merge.writeGroup first rest { m with schedule } d = left at agree after ⊢
  generalize Merge.writeGroup first rest { m' with schedule := schedule' } d' = right
    at agree after ⊢
  obtain ⟨result, m₁, d₁⟩ := left
  obtain ⟨result', m₁', d₁'⟩ := right
  cases agree with
  | ok together => exact ⟨.ok together, after⟩
  | failed e =>
    -- What is told if cursors cannot be released differs in nothing that a merge looks at.
    obtain ⟨answer, released⟩ := Schedule.releaseAll_congr after.heap
    dsimp only
    generalize Schedule.releaseAll m₁.schedule = left at answer released ⊢
    generalize Schedule.releaseAll m₁'.schedule = right at answer released ⊢
    obtain ⟨result, schedule⟩ := left
    obtain ⟨result', schedule'⟩ := right
    obtain rfl : result = result' := answer
    cases result with
    | error release => exact ⟨.failed e, released, after.progress, rfl, after.related⟩
    | ok done => exact ⟨.failed e, released, after.progress, rfl, after.related⟩

omit [PostingSink S] [PostingSink S'] [Dictionary D] [Dictionary D'] in
/-- Merges of cursors that were opened alike start in step, however often progress is told. -/
theorem inStep_start [RunOpener F C] {opener opener' : F} {count count' : Nat}
    (result : (Schedule.start count opener).1 = (Schedule.start count' opener').1)
    (heap : (Schedule.start count opener).2.2.heap = (Schedule.start count' opener').2.2.heap)
    {sink : S} {sink' : S'} (related : R sink d sink' d') (interval interval' : Nat) :
    let left := start count opener sink interval
    let right := start count' opener' sink' interval'
    left.1 = right.1 ∧ InStep R left.2.2 d right.2.2 d' := by
  unfold start
  generalize Schedule.start count opener = left at result heap ⊢
  generalize Schedule.start count' opener' = right at result heap ⊢
  obtain ⟨answer, opener, schedule⟩ := left
  obtain ⟨answer', opener', schedule'⟩ := right
  obtain rfl : answer = answer' := result
  cases answer with
  | error e => exact ⟨rfl, heap, rfl, rfl, related⟩
  | ok done => exact ⟨rfl, heap, rfl, rfl, related⟩

omit [PostingSink S] [PostingSink S'] [Dictionary D] [Dictionary D'] in
theorem InStep.isDone_eq (h : InStep R m d m' d') : m.isDone = m'.isDone := by
  unfold isDone
  rw [h.isPoisoned, Schedule.isEmpty_congr h.heap]

omit [PostingSink S] [PostingSink S'] [Dictionary D] [Dictionary D'] in
/-- Giving both merges up comes to the same. -/
theorem InStep.abort (h : InStep R m d m' d') :
    (Merge.abort m).1 = (Merge.abort m').1 ∧
      InStep R (Merge.abort m).2 d (Merge.abort m').2 d' := by
  obtain ⟨answer, released⟩ := Schedule.releaseAll_congr h.heap
  exact ⟨answer, released, h.progress, rfl, h.related⟩

omit [Dictionary D] [Dictionary D'] in
/-- If both sinks close alike, both merges finish alike, and nothing but closing was done with the
sinks of merges that finish with success. -/
theorem InStep.finish (h : InStep R m d m' d')
    (closes : (PostingSink.close m.sink).1 = (PostingSink.close m'.sink).1) :
    (Merge.finish m).1 = (Merge.finish m').1 ∧ ∀ progress, (Merge.finish m).1 = .ok progress →
      (Merge.finish m).2.sink = (PostingSink.close m.sink).2 ∧
        (Merge.finish m').2.sink = (PostingSink.close m'.sink).2 := by
  have same : m'.held = m.held := congrArg Heap.toList h.heap.symm
  cases fault : m.held.findSome? Lease.closeFault? with
  | some e =>
    have fault' := (congrArg (List.findSome? Lease.closeFault?) same).trans fault
    rw [(finish_of_fault fault).1, (finish_of_fault fault').1]
    exact ⟨rfl, nofun⟩
  | none =>
    have sound := (congrArg (List.findSome? Lease.closeFault?) same).trans fault
    obtain ⟨result, sink⟩ := finish_of_sound fault
    obtain ⟨result', sink'⟩ := finish_of_sound sound
    rw [result, result', h.progress, closes]
    exact ⟨rfl, fun _ _ => ⟨sink, sink'⟩⟩

/-- Any sequence of calls leaves both merges in step. -/
theorem InStep.perform (h : InStep R m d m' d') (lockstep : Lockstep takes R Has)
    (supplies : Supplies C takes K) (kind : m.Each K) (calls : List Call) :
    InStep R (Merge.perform calls m d).1 (Merge.perform calls m d).2
      (Merge.perform calls m' d').1 (Merge.perform calls m' d').2 := by
  induction calls generalizing m d m' d' with
  | nil => exact h
  | cons next calls ih =>
    rw [perform_cons, perform_cons]
    cases next with
    | step => exact ih (h.step lockstep supplies kind).2 (each_step supplies.toLasting m d kind)
    | abort => exact ih h.abort.2 (Schedule.each_releaseAll m.schedule)

/-- Merging both to the end comes to the same. -/
theorem InStep.rest (h : InStep R m d m' d') (lockstep : Lockstep takes R Has)
    (supplies : Supplies C takes K) (kind : m.Each K) (terms terms' : Array MergedTerm) :
    let left := m.rest d terms
    let right := m'.rest d' terms'
    left.1 = right.1 ∧ InStep R left.2.2.1 left.2.2.2 right.2.2.1 right.2.2.2 := by
  fun_induction Merge.rest m d terms generalizing m' d' terms' with
  | case1 m d terms done =>
    rw [h.isDone_eq] at done
    rw [Merge.rest, if_pos done]
    exact ⟨rfl, h⟩
  | case2 m d terms running merged m₁ d₁ written ih =>
    obtain ⟨agree, after⟩ := h.step lockstep supplies kind
    have still := each_step supplies.toLasting m d kind
    rw [written] at agree after still
    rcases written' : m'.step d' with ⟨result, m₁', d₁'⟩
    rw [written'] at agree after
    cases agree with
    | ok together =>
      have running' : m'.isDone = false := by
        rw [← h.isDone_eq]
        exact Bool.eq_false_iff.mpr running
      rw [rest_of_step_eq_ok running' written']
      exact ih after still _
  | case3 m d terms running e m₁ d₁ failed =>
    obtain ⟨agree, after⟩ := h.step lockstep supplies kind
    rw [failed] at agree after
    rcases failed' : m'.step d' with ⟨result, m₁', d₁'⟩
    rw [failed'] at agree after
    cases agree with
    | failed e =>
      have running' : m'.isDone = false := by
        rw [← h.isDone_eq]
        exact Bool.eq_false_iff.mpr running
      rw [rest_of_step_eq_error running' failed']
      exact ⟨rfl, after⟩

end Steps

end Merge

end IndexMerge
