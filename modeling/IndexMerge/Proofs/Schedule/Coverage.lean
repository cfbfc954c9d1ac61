import IndexMerge.Proofs.Run.Union
import IndexMerge.Proofs.Run.Walk
import IndexMerge.Proofs.Schedule.Group
import Mathlib.Data.List.Perm.Basic

/-!
# Schedules of runs

A schedule covers runs if it holds one cursor for each run that has entries, which stands on the
first of these and goes over the others (`Covers`). The group that is taken from such a schedule
belongs to the runs that hold the first term of the union, in their order, and leaves the other
runs covered (`covers_popGroup`). Bringing the cursors back covers what is left of their runs
(`covers_requeueAll`).
-/

namespace IndexMerge

section Rows

variable {α β : Type} {R : α → β → Prop}

theorem exists_of_mem_right {a : List α} {b : List β} (h : List.Forall₂ R a b) {y : β}
    (member : y ∈ b) : ∃ x ∈ a, R x y := by
  induction h with
  | nil => cases member
  | cons first _ ih =>
    rcases List.mem_cons.mp member with rfl | member
    · exact ⟨_, List.mem_cons_self .., first⟩
    · obtain ⟨x, member, related⟩ := ih member
      exact ⟨x, List.mem_cons_of_mem _ member, related⟩

theorem forall₂_append_left {a b : List α} {c : List β} (h : List.Forall₂ R (a ++ b) c) :
    ∃ u v, c = u ++ v ∧ List.Forall₂ R a u ∧ List.Forall₂ R b v := by
  have front := List.forall₂_take a.length h
  have behind := List.forall₂_drop a.length h
  rw [List.take_left] at front
  rw [List.drop_left] at behind
  exact ⟨_, _, (List.take_append_drop a.length c).symm, front, behind⟩

end Rows

variable {F C : Type} [RunCursor C]

/-- Whether a run has entries. -/
def Run.hasEntries (run : Run) : Bool := !run.entries.toList.isEmpty

theorem Run.hasEntries_iff {run : Run} : run.hasEntries = true ↔ run.entries.toList ≠ [] := by
  simp [hasEntries]

theorem Run.hasEntries_of_holds {run : Run} {term : Term} (h : run.holds term = true) :
    run.hasEntries = true := by
  refine hasEntries_iff.mpr fun none => ?_
  have member := holds_iff.mp h
  simp [terms, none] at member

theorem Run.filter_holds (runs : List Run) (term : Term) :
    (runs.filter hasEntries).filter (·.holds term) = runs.filter (·.holds term) := by
  rw [List.filter_filter]
  refine List.filter_congr fun run _ => ?_
  cases held : run.holds term with
  | false => rfl
  | true => rw [hasEntries_of_holds held]; rfl

/-- A lease stands for a run if its cursor stands on the first entry and goes over the others. -/
def Lease.StandsFor (lease : Lease C) (run : Run) : Prop :=
  ∃ e entries, run.entries.toList = e :: entries ∧ lease.Stands run.index e entries

/-- A lease whose cursor goes over all entries of a run. -/
def Lease.WalksOver (lease : Lease C) (run : Run) : Prop :=
  lease.Walks run.index run.entries.toList

theorem Lease.StandsFor.runIndex_eq {lease : Lease C} {run : Run} (h : lease.StandsFor run) :
    lease.runIndex = run.index := by
  obtain ⟨e, entries, -, stands⟩ := h
  exact stands.runIndex_eq

theorem Lease.map_index_of_standsFor {leases : List (Lease C)} {runs : List Run}
    (h : List.Forall₂ Lease.StandsFor leases runs) :
    runs.map Run.index = leases.map Lease.runIndex := by
  induction h with
  | nil => rfl
  | cons first _ ih => rw [List.map_cons, List.map_cons, first.runIndex_eq, ih]

theorem Lease.StandsFor.mem_terms {lease : Lease C} {run : Run} (h : lease.StandsFor run) :
    lease.term ∈ run.terms := by
  obtain ⟨e, entries, split, stands⟩ := h
  simp [Run.terms, split, stands.term_eq]

/-- The term of a cursor comes behind no term of its run. -/
theorem Lease.StandsFor.least {lease : Lease C} {run : Run} (h : lease.StandsFor run)
    (ascending : Term.Ascending run.terms) {u : Term} (member : u ∈ run.terms) :
    u.precedes lease.term = false := by
  obtain ⟨e, entries, split, stands⟩ := h
  rw [Run.terms, split, List.map_cons] at ascending member
  rw [stands.term_eq]
  rcases List.mem_cons.mp member with rfl | member
  · exact Term.precedes_irrefl e.term
  · exact Term.precedes_asymm ((List.pairwise_cons.mp ascending).1 u member)

namespace Schedule

/-- A heap holds one cursor for each run that has entries. -/
structure Covers (heap : Heap (Lease.before (C := C))) (runs : List Run) : Prop where
  ordered : heap.IsOrdered
  cursors : ∃ order : List Run, List.Forall₂ Lease.StandsFor heap.toList order ∧
    order.Perm (runs.filter Run.hasEntries)

namespace Covers

variable {heap : Heap (Lease.before (C := C))} {runs runs' : List Run} {run : Run}
  {lease : Lease C}

theorem empty : Covers (.empty : Heap (Lease.before (C := C))) [] :=
  ⟨Heap.isOrdered_empty, [], .nil, .nil⟩

theorem perm (h : Covers heap runs) (same : runs.Perm runs') : Covers heap runs' := by
  obtain ⟨order, stand, perm⟩ := h.cursors
  exact ⟨h.ordered, order, stand, perm.trans (same.filter _)⟩

/-- A run without entries needs no cursor. -/
theorem ended (h : Covers heap runs) (none : run.entries.toList = []) :
    Covers heap (run :: runs) := by
  obtain ⟨order, stand, perm⟩ := h.cursors
  refine ⟨h.ordered, order, stand, ?_⟩
  rwa [List.filter_cons_of_neg (by simp [Run.hasEntries, none])]

theorem push (h : Covers heap runs) (stands : lease.StandsFor run) :
    Covers (heap.push lease) (run :: runs) := by
  obtain ⟨order, stand, perm⟩ := h.cursors
  obtain ⟨order', stand', perm'⟩ :=
    List.perm_comp_forall₂ (Heap.items_push heap lease) (.cons stands stand)
  refine ⟨Heap.isOrdered_push Lease.heapOrder h.ordered lease, order', stand', ?_⟩
  obtain ⟨e, entries, split, -⟩ := stands
  rw [List.filter_cons_of_pos (by simp [Run.hasEntries, split])]
  exact perm'.trans (perm.cons run)

/-- Nothing is scheduled exactly if the runs have no terms. -/
theorem toList_eq_nil_iff (h : Covers heap runs) : heap.toList = [] ↔ vocabulary runs = [] := by
  obtain ⟨order, stand, perm⟩ := h.cursors
  constructor
  · intro none
    rw [none, List.forall₂_nil_left_iff] at stand
    subst stand
    refine List.eq_nil_iff_forall_not_mem.mpr fun term found => ?_
    obtain ⟨run, member, found⟩ := mem_vocabulary.mp found
    have has := Run.hasEntries_of_holds (Run.holds_iff.mpr found)
    have listed := List.mem_filter.mpr ⟨member, has⟩
    rw [← perm.mem_iff] at listed
    cases listed
  · intro none
    cases leases : heap.toList with
    | nil => rfl
    | cons lease rest =>
      rw [leases] at stand
      obtain ⟨run, order', stands, -, rfl⟩ := List.forall₂_cons_left_iff.mp stand
      have member := (List.mem_filter.mp (perm.mem_iff.mp (List.mem_cons_self ..))).1
      have found := mem_vocabulary.mpr ⟨run, member, stands.mem_terms⟩
      rw [none] at found
      cases found

end Covers

variable {s : Schedule C} {runs : List Run} {term : Term} {terms : List Term}

/-- Runs in the order of their numbers are determined by which runs they are. -/
theorem eq_of_index_ascending {taken : List Run}
    (distinct : runs.Pairwise fun a b => a.index < b.index) (perm : taken.Perm runs)
    (ascending : taken.Pairwise fun a b => a.index ≤ b.index) :
    taken = runs := by
  refine List.Perm.eq_of_pairwise ?_ ascending (distinct.imp Nat.le_of_lt) perm
  intro a b first second le ge
  have listed := perm.mem_iff.mp first
  obtain ⟨i, hi, rfl⟩ := List.mem_iff_getElem.mp listed
  obtain ⟨j, hj, rfl⟩ := List.mem_iff_getElem.mp second
  rcases Nat.lt_trichotomy i j with less | same | greater
  · have apart := List.pairwise_iff_getElem.mp distinct i j hi hj less
    omega
  · subst same
    rfl
  · have apart := List.pairwise_iff_getElem.mp distinct j i hj hi greater
    omega

/-- The cursors of a group and those left behind stand for the runs that have entries. -/
theorem standsFor_popGroup {s' : Schedule C} {lease : Lease C} {rest : List (Lease C)}
    (covers : Covers s.heap runs) (popped : s.popGroup = some (lease, rest, s')) :
    ∃ taken behind, List.Forall₂ Lease.StandsFor (lease :: rest) taken ∧
      List.Forall₂ Lease.StandsFor s'.heap.toList behind ∧
      (taken ++ behind).Perm (runs.filter Run.hasEntries) := by
  have ⟨kept, _⟩ := group_popGroup covers.ordered popped
  obtain ⟨order, stand, perm⟩ := covers.cursors
  obtain ⟨order', stand', perm'⟩ := List.perm_comp_forall₂ kept stand
  obtain ⟨taken, behind, rfl, standTaken, standBehind⟩ := forall₂_append_left stand'
  exact ⟨taken, behind, standTaken, standBehind, perm'.trans perm⟩

/-- A group stands on the first term of the union. -/
theorem term_popGroup {s' : Schedule C} {lease : Lease C} {rest : List (Lease C)}
    (covers : Covers s.heap runs) (ascending : ∀ run ∈ runs, Term.Ascending run.terms)
    (popped : s.popGroup = some (lease, rest, s')) (first : vocabulary runs = term :: terms) :
    lease.term = term := by
  obtain ⟨kept, group, -⟩ := group_popGroup covers.ordered popped
  obtain ⟨taken, behind, standTaken, standBehind, perm⟩ := standsFor_popGroup covers popped
  have listed : ∀ run ∈ taken ++ behind, run ∈ runs := fun run member =>
    (List.mem_filter.mp (perm.mem_iff.mp member)).1
  have least : ∀ u ∈ vocabulary runs, u.precedes lease.term = false := by
    intro u found
    obtain ⟨run, member, found⟩ := mem_vocabulary.mp found
    have has := Run.hasEntries_of_holds (Run.holds_iff.mpr found)
    have order := perm.mem_iff.mpr (List.mem_filter.mpr ⟨member, has⟩)
    rcases List.mem_append.mp order with order | order
    · obtain ⟨other, member', stands⟩ := exists_of_mem_right standTaken order
      have behind := stands.least (ascending run member) found
      rwa [group.terms other member'] at behind
    · obtain ⟨other, member', stands⟩ := exists_of_mem_right standBehind order
      have behind := stands.least (ascending run member) found
      refine Bool.eq_false_iff.mpr fun before => ?_
      rw [Term.precedes_trans before (group.greater other member')] at behind
      cases behind
  obtain ⟨run, taken', stands, -, rfl⟩ := List.forall₂_cons_left_iff.mp standTaken
  have here : lease.term ∈ vocabulary runs :=
    mem_vocabulary.mpr ⟨run, listed run (by simp), stands.mem_terms⟩
  rw [vocabulary_eq_cons here least] at first
  exact (List.cons.inj first).1

/-- The group on the first term belongs to the runs that hold it, in their order, and the other
runs stay covered. -/
theorem covers_popGroup (covers : Covers s.heap runs)
    (ascending : ∀ run ∈ runs, Term.Ascending run.terms)
    (distinct : runs.Pairwise fun a b => a.index < b.index)
    (first : vocabulary runs = term :: terms) :
    ∃ lease rest s', s.popGroup = some (lease, rest, s') ∧
      (∀ other ∈ lease :: rest, other.term = term) ∧
      List.Forall₂ Lease.StandsFor (lease :: rest) (runs.filter (·.holds term)) ∧
      Covers s'.heap (runs.filter fun run => !run.holds term) := by
  cases popped : s.popGroup with
  | none =>
    rw [covers.toList_eq_nil_iff.mp (toList_of_popGroup popped)] at first
    cases first
  | some group =>
    obtain ⟨lease, rest, s'⟩ := group
    obtain rfl := term_popGroup covers ascending popped first
    obtain ⟨kept, group, -⟩ := group_popGroup covers.ordered popped
    obtain ⟨taken, behind, standTaken, standBehind, perm⟩ := standsFor_popGroup covers popped
    have listed : ∀ run ∈ taken ++ behind, run ∈ runs := fun run member =>
      (List.mem_filter.mp (perm.mem_iff.mp member)).1
    have held : ∀ run ∈ taken, run.holds lease.term = true := by
      intro run member
      obtain ⟨other, member', stands⟩ := exists_of_mem_right standTaken member
      rw [Run.holds_iff, ← group.terms other member']
      exact stands.mem_terms
    have free : ∀ run ∈ behind, run.holds lease.term = false := by
      intro run member
      obtain ⟨other, member', e, entries, split, stands⟩ :=
        exists_of_mem_right standBehind member
      refine Run.not_holds_of_precedes (ascending run (listed run (by simp [member]))) split ?_
      rw [← stands.term_eq]
      exact group.greater other member'
    have holders := perm.filter (·.holds lease.term)
    rw [List.filter_append, List.filter_eq_self.mpr held,
      List.filter_eq_nil_iff.mpr (by simpa using free), List.append_nil,
      Run.filter_holds] at holders
    have others := perm.filter (fun run => !run.holds lease.term)
    rw [List.filter_append, List.filter_eq_nil_iff.mpr (by simpa using held), List.nil_append,
      List.filter_eq_self.mpr (by simpa using free), List.filter_comm] at others
    have same : taken = runs.filter (·.holds lease.term) := by
      refine eq_of_index_ascending (distinct.filter _) holders ?_
      have ascending := List.pairwise_map.mpr group.ascending
      rw [← Lease.map_index_of_standsFor standTaken] at ascending
      exact List.pairwise_map.mp ascending
    exact ⟨lease, rest, s', rfl, group.terms, same ▸ standTaken, group.ordered, behind,
      standBehind, others⟩

/-- A cursor that comes back covers what is left of its run. -/
theorem covers_requeue {lease : Lease C} {run : Run} (covers : Covers s.heap runs)
    (walks : lease.WalksOver run) :
    ∃ s', requeue lease s = (.ok (), s') ∧ Covers s'.heap (run :: runs) := by
  have more := walks.hasNext_eq
  unfold requeue
  cases split : run.entries.toList with
  | nil =>
    rw [Lease.WalksOver, split] at walks
    rw [if_neg (by simp [more, split])]
    exact ⟨_, Prod.ext walks.2.2 rfl, covers.ended split⟩
  | cons e entries =>
    rw [Lease.WalksOver, split] at walks
    obtain ⟨cursor, advanced, stands⟩ := walks.advance
    rw [if_pos (by simp [more, split]), advanced]
    exact ⟨_, rfl, covers.push ⟨e, entries, split, stands⟩⟩

theorem covers_requeueAll {leases : List (Lease C)} {left : List Run}
    (covers : Covers s.heap runs) (walk : List.Forall₂ Lease.WalksOver leases left) :
    ∃ s', requeueAll leases s = (.ok (), s') ∧ Covers s'.heap (left ++ runs) := by
  induction walk generalizing s runs with
  | nil => exact ⟨s, rfl, covers⟩
  | @cons lease run leases left walks _ ih =>
    obtain ⟨s₁, requeued, covers⟩ := covers_requeue covers walks
    obtain ⟨s₂, rest, covers⟩ := ih covers
    refine ⟨s₂, ?_, covers.perm List.perm_middle⟩
    unfold requeueAll
    rw [requeued]
    exact rest

/-- What is told does not change which cursors are scheduled. -/
theorem heap_foldl_tell (notices : List Notice) (s : Schedule C) :
    (notices.foldl tell s).heap = s.heap := by
  induction notices generalizing s with
  | nil => rfl
  | cons notice notices ih => exact ih (s.tell notice)

section Opening

variable [RunOpener F C]

/-- From a position on an opener gives cursors that go over these runs. -/
def Opens : F → Nat → List Run → Prop
  | _, _, [] => True
  | opener, position, run :: runs => run.index = position ∧ ∃ cursor notices opener',
      RunOpener.openRun position opener = (.ok cursor, notices, opener') ∧
      Lease.WalksOver ⟨position, cursor⟩ run ∧ Opens opener' (position + 1) runs

theorem covers_enlist {lease : Lease C} {run : Run} (covers : Covers s.heap runs)
    (walks : lease.WalksOver run) (place : run.index = lease.position) :
    ∃ s', enlist lease s = (.ok (), s') ∧ Covers s'.heap (run :: runs) := by
  have more := walks.hasNext_eq
  unfold enlist
  rw [if_neg (by simp [walks.runIndex_eq, place])]
  cases split : run.entries.toList with
  | nil =>
    rw [Lease.WalksOver, split] at walks
    rw [if_pos (by simp [more, split])]
    exact ⟨_, Prod.ext walks.2.2 rfl, covers.ended split⟩
  | cons e entries =>
    rw [Lease.WalksOver, split] at walks
    obtain ⟨cursor, advanced, stands⟩ := walks.advance
    rw [if_neg (by simp [more, split]), advanced]
    exact ⟨_, rfl, covers.push ⟨e, entries, split, stands⟩⟩

theorem covers_openRuns {opener : F} {position : Nat} {more : List Run}
    (covers : Covers s.heap runs) (opens : Opens opener position more) :
    ∃ opener' s', openRuns more.length position opener s = (.ok (), opener', s') ∧
      Covers s'.heap (more ++ runs) := by
  induction more generalizing opener position s runs with
  | nil => exact ⟨opener, s, rfl, covers⟩
  | cons run more ih =>
    obtain ⟨place, cursor, notices, opener', opened, walks, opens⟩ := opens
    have told : Covers (notices.foldl tell s).heap runs := by rwa [heap_foldl_tell]
    obtain ⟨s₁, enlisted, covers⟩ := covers_enlist
      (s := { notices.foldl tell s with
        ledger := (notices.foldl tell s).ledger.record (.opened position cursor) }) told walks place
    obtain ⟨opener'', s₂, rest, covers⟩ := ih covers opens
    refine ⟨opener'', s₂, ?_, covers.perm List.perm_middle⟩
    rw [List.length_cons, openRuns, openRun, opened]
    simp only [enlisted, rest]

/-- A schedule that is started over runs covers them. -/
theorem covers_start {opener : F} (opens : Opens opener 0 runs) :
    ∃ opener' s', start (C := C) runs.length opener = (.ok (), opener', s') ∧
      Covers s'.heap runs := by
  obtain ⟨opener', s', opened, covers⟩ := covers_openRuns (s := Schedule.empty) Covers.empty opens
  rw [List.append_nil] at covers
  exact ⟨opener', s', opened, covers⟩

end Opening

end Schedule

end IndexMerge
