import IndexMerge.Merge.Basic

/-!
# Combining statistics

Statistics are combined in pairs, and a pair may be refused. Whatever the order and whatever the
brackets (`Grouping`), the outcome is decided by all of them together: their sum, if all have as
many fields and their documents can be counted (`Addable`), and a refusal otherwise
(`combined_of_perm`).
-/

namespace IndexMerge

namespace TermStatistics

/-- Statistics with brackets around them, which say what is combined with what. -/
inductive Grouping where
  | single (s : TermStatistics)
  | both (mine theirs : Grouping)
  deriving Repr

namespace Grouping

/-- The statistics from left to right. -/
def members : Grouping → List TermStatistics
  | single s => [s]
  | both mine theirs => mine.members ++ theirs.members

/-- The statistics that the others are added to. -/
def first : Grouping → TermStatistics
  | single s => s
  | both mine _ => mine.first

/-- The statistics combined as the brackets say. -/
def combined : Grouping → Except Error TermStatistics
  | single s => .ok s
  | both mine theirs => do
    let sum ← mine.combined
    sum.combine (← theirs.combined)

/-- The brackets of a fold. -/
def leftward (g : Grouping) (rest : List TermStatistics) : Grouping :=
  rest.foldl (fun g s => both g (single s)) g

end Grouping

/-- The number of occurrences in a field, and zero where there is no field. -/
def field (s : TermStatistics) (i : Nat) : UInt64 := s.fieldFrequencies.getD i 0

/-- All have as many fields, and the number of all their documents is a word. -/
structure Addable (members : List TermStatistics) : Prop where
  fieldCounts : ∀ s ∈ members, ∀ t ∈ members,
    s.fieldFrequencies.length = t.fieldFrequencies.length
  documents : total (members.map (·.documentFrequency.toNat)) < UInt32.size

/-- The numbers of all occurrences, and of those in each field, are words. -/
structure Bounded (members : List TermStatistics) : Prop where
  occurrences : total (members.map (·.frequency.toNat)) < UInt64.size
  fields : ∀ i, total (members.map fun s => (s.field i).toNat) < UInt64.size

/-- The statistics count what the members count together, as words. -/
structure AddsUp (members : List TermStatistics) (s : TermStatistics) : Prop where
  fieldCounts : ∀ t ∈ members, t.fieldFrequencies.length = s.fieldFrequencies.length
  documents : s.documentFrequency.toNat = total (members.map (·.documentFrequency.toNat))
  occurrences : s.frequency = UInt64.ofNat (total (members.map (·.frequency.toNat)))
  fields : ∀ i, s.field i = UInt64.ofNat (total (members.map fun t => (t.field i).toNat))

section Pairs

/-- A pair is refused because of its fields or because of its documents, or it has a sum. -/
theorem combine_cases (mine theirs : TermStatistics) :
    (mine.fieldFrequencies.length ≠ theirs.fieldFrequencies.length ∨
        UInt32.size ≤ mine.documentFrequency.toNat + theirs.documentFrequency.toNat) ∧
      (∃ cause, mine.combine theirs = .error (.violation cause)) ∨
    mine.fieldFrequencies.length = theirs.fieldFrequencies.length ∧
      mine.documentFrequency.toNat + theirs.documentFrequency.toNat < UInt32.size ∧
      mine.combine theirs = .ok { mine with
        documentFrequency := mine.documentFrequency + theirs.documentFrequency
        frequency := mine.frequency + theirs.frequency
        fieldFrequencies :=
          List.zipWith (· + ·) mine.fieldFrequencies theirs.fieldFrequencies } := by
  rw [combine_eq]
  by_cases same : mine.fieldFrequencies.length = theirs.fieldFrequencies.length
  · rw [if_neg (not_not_intro same)]
    by_cases excess :
        UInt32.size ≤ mine.documentFrequency.toNat + theirs.documentFrequency.toNat
    · rw [if_pos excess]
      exact .inl ⟨.inr excess, _, rfl⟩
    · rw [if_neg excess]
      exact .inr ⟨same, Nat.lt_of_not_le excess, rfl⟩
  · rw [if_pos same]
    exact .inl ⟨.inl same, _, rfl⟩

/-- A refusal leaves the statistics as they were. -/
theorem absorb_of_error {mine theirs : TermStatistics} {e : Error}
    (refused : mine.combine theirs = .error e) : absorb theirs mine = (.error e, mine) := by
  have failed := Attempt.outcome_eq_error.mp refused
  refine Prod.ext failed ?_
  revert failed
  unfold absorb
  by_cases same : mine.fieldFrequencies.length = theirs.fieldFrequencies.length
  · by_cases excess :
        UInt32.size ≤ mine.documentFrequency.toNat + theirs.documentFrequency.toNat
    · simp [Attempt.bind_apply, same, excess]
    · simp [Attempt.bind_apply, same, excess]
  · simp [Attempt.bind_apply, same]

/-- Totals by field that are added one by one. -/
theorem getD_zipWith_add {a b : List UInt64} (same : a.length = b.length) (i : Nat) :
    (List.zipWith (· + ·) a b).getD i 0 = a.getD i 0 + b.getD i 0 := by
  simp only [List.getD_eq_getElem?_getD, List.getElem?_zipWith]
  by_cases inside : i < a.length
  · have there : i < b.length := by omega
    simp [List.getElem?_eq_getElem inside, List.getElem?_eq_getElem there]
  · have beyond : b.length ≤ i := by omega
    simp [List.getElem?_eq_none (Nat.le_of_not_lt inside), List.getElem?_eq_none beyond]

end Pairs

section Sums

variable {members others : List TermStatistics} {s t sum : TermStatistics}

theorem Addable.perm (h : Addable members) (same : members.Perm others) : Addable others := by
  refine ⟨fun s left t right => ?_, ?_⟩
  · exact h.fieldCounts s (same.mem_iff.mpr left) t (same.mem_iff.mpr right)
  · rw [← total_perm (same.map (·.documentFrequency.toNat))]
    exact h.documents

/-- Of those that can be added, the front and the rest can be added. -/
theorem Addable.of_append (h : Addable (members ++ others)) :
    Addable members ∧ Addable others := by
  have sum := h.documents
  rw [List.map_append, total_append] at sum
  refine ⟨⟨fun s left t right => ?_, by omega⟩, ⟨fun s left t right => ?_, by omega⟩⟩
  · exact h.fieldCounts s (List.mem_append_left _ left) t (List.mem_append_left _ right)
  · exact h.fieldCounts s (List.mem_append_right _ left) t (List.mem_append_right _ right)

theorem AddsUp.perm (h : AddsUp members s) (same : members.Perm others) : AddsUp others s := by
  refine ⟨fun t member => h.fieldCounts t (same.mem_iff.mpr member), ?_, ?_, fun i => ?_⟩
  · rw [h.documents, total_perm (same.map (·.documentFrequency.toNat))]
  · rw [h.occurrences, total_perm (same.map (·.frequency.toNat))]
  · rw [h.fields i, total_perm (same.map fun t => (t.field i).toNat)]

/-- Statistics that add up can be added. -/
theorem AddsUp.addable (h : AddsUp members s) : Addable members := by
  refine ⟨fun a left b right => ?_, ?_⟩
  · rw [h.fieldCounts a left, h.fieldCounts b right]
  · rw [← h.documents]
    exact s.documentFrequency.toNat_lt

/-- What some add up to is determined, but for the identifier and the pointer. -/
theorem AddsUp.unique (h : AddsUp members s) (h' : AddsUp members t) (some : members ≠ []) :
    s.detached = t.detached := by
  obtain ⟨m, member⟩ := List.exists_mem_of_ne_nil members some
  have documents : s.documentFrequency = t.documentFrequency := by
    apply UInt32.toNat_inj.mp
    rw [h.documents, h'.documents]
  have occurrences : s.frequency = t.frequency := by
    rw [h.occurrences, h'.occurrences]
  have length : s.fieldFrequencies.length = t.fieldFrequencies.length := by
    rw [← h.fieldCounts m member, ← h'.fieldCounts m member]
  have fields : s.fieldFrequencies = t.fieldFrequencies := by
    apply List.ext_getElem length
    intro i left right
    have same : s.field i = t.field i := by rw [h.fields i, h'.fields i]
    simpa [field, left, right] using same
  rw [detached, detached, documents, occurrences, fields]

theorem addsUp_single (s : TermStatistics) : AddsUp [s] s := by
  refine ⟨?_, ?_, ?_, fun i => ?_⟩
  · simp
  · simp
  · simp
  · simp

/-- The sum of two sums is the sum of all. -/
theorem AddsUp.combine (h : AddsUp members s) (h' : AddsUp others t)
    (same : s.fieldFrequencies.length = t.fieldFrequencies.length)
    (short : s.documentFrequency.toNat + t.documentFrequency.toNat < UInt32.size) :
    AddsUp (members ++ others) { s with
      documentFrequency := s.documentFrequency + t.documentFrequency
      frequency := s.frequency + t.frequency
      fieldFrequencies := List.zipWith (· + ·) s.fieldFrequencies t.fieldFrequencies } := by
  have length : (List.zipWith (· + ·) s.fieldFrequencies t.fieldFrequencies).length =
      s.fieldFrequencies.length := by
    rw [List.length_zipWith, same, Nat.min_self]
  refine ⟨fun m member => ?_, ?_, ?_, fun i => ?_⟩
  · show m.fieldFrequencies.length = (List.zipWith _ _ _).length
    rw [length]
    rcases List.mem_append.mp member with member | member
    · exact h.fieldCounts m member
    · rw [h'.fieldCounts m member, same]
  · show (s.documentFrequency + t.documentFrequency).toNat = _
    rw [UInt32.toNat_add, Nat.mod_eq_of_lt short, h.documents, h'.documents, List.map_append,
      total_append]
  · show s.frequency + t.frequency = _
    rw [h.occurrences, h'.occurrences, List.map_append, total_append, UInt64.ofNat_add]
  · show (List.zipWith _ _ _).getD i 0 = _
    rw [getD_zipWith_add same, List.map_append, total_append, UInt64.ofNat_add, ← h.fields i,
      ← h'.fields i]
    rfl

end Sums

namespace Grouping

theorem first_mem (g : Grouping) : g.first ∈ g.members := by
  induction g with
  | single s => exact List.mem_singleton_self s
  | both mine theirs first _ => exact List.mem_append_left _ first

/-- Combining gives the sum of all members, or they cannot be added. -/
theorem combined_cases (g : Grouping) :
    (∃ s, g.combined = .ok s ∧ AddsUp g.members s ∧
        s.termId = g.first.termId ∧ s.pointer = g.first.pointer) ∨
      (∃ cause, g.combined = .error (.violation cause)) ∧ ¬ Addable g.members := by
  induction g with
  | single s => exact .inl ⟨s, rfl, addsUp_single s, rfl, rfl⟩
  | both mine theirs left right =>
    have combined : (both mine theirs).combined =
      mine.combined >>= fun sum => theirs.combined >>= fun more => sum.combine more := rfl
    have members : (both mine theirs).members = mine.members ++ theirs.members := rfl
    rw [combined, members]
    obtain ⟨s, summed, adds, termId, pointer⟩ | ⟨⟨cause, refused⟩, never⟩ := left
    · obtain ⟨t, summed', adds', -⟩ | ⟨⟨cause, refused⟩, never⟩ := right
      · rw [summed, summed']
        obtain ⟨why, refused⟩ | ⟨same, short, done⟩ := combine_cases s t
        · refine .inr ⟨refused, fun addable => ?_⟩
          rcases why with differ | excess
          · apply differ
            rw [← adds.fieldCounts _ mine.first_mem, ← adds'.fieldCounts _ theirs.first_mem]
            exact addable.fieldCounts _ (List.mem_append_left _ mine.first_mem) _
              (List.mem_append_right _ theirs.first_mem)
          · have documents := addable.documents
            rw [List.map_append, total_append, ← adds.documents, ← adds'.documents] at documents
            omega
        · exact .inl ⟨_, done, adds.combine adds' same short, termId, pointer⟩
      · rw [summed, refused]
        exact .inr ⟨⟨cause, rfl⟩, fun addable => never addable.of_append.2⟩
    · rw [refused]
      exact .inr ⟨⟨cause, rfl⟩, fun addable => never addable.of_append.1⟩

/-- A fold combines with the brackets to the left. -/
theorem combined_leftward (g : Grouping) (rest : List TermStatistics) :
    (leftward g rest).combined = g.combined >>= fun s => rest.foldlM combine s := by
  induction rest generalizing g with
  | nil =>
    show g.combined = _
    cases g.combined with
    | ok s => rfl
    | error e => rfl
  | cons t rest ih =>
    show (leftward (both g (single t)) rest).combined = _
    rw [ih]
    have combined : (both g (single t)).combined = g.combined >>= fun s => s.combine t := rfl
    rw [combined]
    cases g.combined with
    | ok s => rfl
    | error e => rfl

theorem members_leftward (g : Grouping) (rest : List TermStatistics) :
    (leftward g rest).members = g.members ++ rest := by
  induction rest generalizing g with
  | nil => exact (List.append_nil _).symm
  | cons t rest ih =>
    show (leftward (both g (single t)) rest).members = _
    rw [ih]
    simp [members]

end Grouping

open Grouping

/-- The same statistics may be combined in any order and with any brackets, in particular in those
of a fold, as a merge does it. If all have as many fields and the number of their documents is a
word, every way succeeds, with the same counts: the sums of the counts. Identifier and pointer are
those of the statistics that the others are added to. Otherwise every way is refused as a violation.
Statistics to which others are added in place stay as they were when this is refused. -/
theorem combined_of_perm {g h : Grouping} (same : g.members.Perm h.members)
    (countable : Bounded g.members) :
    (Addable g.members → ∃ s t, g.combined = .ok s ∧ h.combined = .ok t ∧
      s.detached = t.detached ∧
      s.documentFrequency.toNat = total (g.members.map (·.documentFrequency.toNat)) ∧
      s.frequency.toNat = total (g.members.map (·.frequency.toNat)) ∧
      (∀ i, (s.field i).toNat = total (g.members.map fun m => (m.field i).toNat)) ∧
      s.termId = g.first.termId ∧ s.pointer = g.first.pointer) ∧
    (¬ Addable g.members → ∃ cause cause', g.combined = .error (.violation cause) ∧
      h.combined = .error (.violation cause')) ∧
    (∀ (first : TermStatistics) (rest : List TermStatistics),
      rest.foldlM combine first = (leftward (.single first) rest).combined ∧
        (leftward (.single first) rest).members = first :: rest) ∧
    (∀ (C : Type) [RunCursor C] (first : Lease C) (rest : List (Lease C)),
      Merge.combineAll first rest =
        (leftward (.single (RunCursor.statistics first.cursor).detached)
          (rest.map fun lease => RunCursor.statistics lease.cursor)).combined) ∧
    ∀ mine theirs : TermStatistics,
      (∃ s, absorb theirs mine = (.ok (), s) ∧ mine.combine theirs = .ok s ∧
        s.termId = mine.termId ∧ s.pointer = mine.pointer) ∨
      ∃ cause, absorb theirs mine = (.error (.violation cause), mine) ∧
        mine.combine theirs = .error (.violation cause) := by
  have folds : ∀ (first : TermStatistics) (rest : List TermStatistics),
      rest.foldlM combine first = (leftward (.single first) rest).combined := by
    intro first rest
    rw [combined_leftward]
    rfl
  refine ⟨fun addable => ?_, fun never => ?_, fun first rest => ⟨folds first rest, ?_⟩, ?_, ?_⟩
  · obtain ⟨s, summed, adds, termId, pointer⟩ | ⟨-, never⟩ := combined_cases g
    · obtain ⟨t, summed', adds', -⟩ | ⟨-, never⟩ := combined_cases h
      · refine ⟨s, t, summed, summed', ?_, adds.documents, ?_, fun i => ?_, termId, pointer⟩
        · exact adds.unique (adds'.perm same.symm) (List.ne_nil_of_mem g.first_mem)
        · rw [adds.occurrences, UInt64.toNat_ofNat_of_lt' countable.occurrences]
        · rw [adds.fields i, UInt64.toNat_ofNat_of_lt' (countable.fields i)]
      · exact absurd (addable.perm same) never
    · exact absurd addable never
  · obtain ⟨s, -, adds, -⟩ | ⟨⟨cause, refused⟩, -⟩ := combined_cases g
    · exact absurd adds.addable never
    · obtain ⟨t, -, adds, -⟩ | ⟨⟨cause', refused'⟩, -⟩ := combined_cases h
      · exact absurd (adds.perm same.symm).addable never
      · exact ⟨cause, cause', refused, refused'⟩
  · rw [members_leftward]
    rfl
  · intro C _ first rest
    rw [← folds, List.foldlM_map]
    rfl
  · intro mine theirs
    obtain ⟨-, cause, refused⟩ | ⟨-, -, done⟩ := combine_cases mine theirs
    · exact .inr ⟨cause, absorb_of_error refused, refused⟩
    · exact .inl ⟨_, Attempt.outcome_eq_ok.mp done, done, rfl, rfl⟩

/-- The statistics of three runs, of which the first has so many documents. -/
def forward (documents : UInt32) : Grouping :=
  .both (.both (.single ⟨documents, 9, [9], some 7, none⟩) (.single ⟨1, 2, [2], none, none⟩))
    (.single ⟨1, 4, [4], none, none⟩)

/-- The same statistics from the last run to the first. -/
def backward (documents : UInt32) : Grouping :=
  .both (.both (.single ⟨1, 4, [4], none, none⟩) (.single ⟨1, 2, [2], none, none⟩))
    (.single ⟨documents, 9, [9], some 7, none⟩)

theorem perm_forward (documents : UInt32) :
    (forward documents).members.Perm (backward documents).members :=
  List.reverse_perm (backward documents).members

theorem bounded_forward (documents : UInt32) : Bounded (forward documents).members := by
  have small : (15 : Nat) < UInt64.size ∧ 0 < UInt64.size := by decide
  refine ⟨small.1, fun i => ?_⟩
  cases i with
  | zero => exact small.1
  | succ i => exact small.2

/-- As many documents as a word can count are combined in either order. With two more, one order
fails at the first step and the other at the last. -/
theorem combined_of_perm_threeRuns :
    (∃ s t, (forward 4294967293).combined = .ok s ∧ (backward 4294967293).combined = .ok t ∧
      s.detached = t.detached ∧ s.documentFrequency.toNat = 4294967295 ∧ s.termId = some 7) ∧
    ∃ cause cause', (forward 4294967295).combined = .error (.violation cause) ∧
      (backward 4294967295).combined = .error (.violation cause') := by
  have fewer := combined_of_perm (perm_forward 4294967293) (bounded_forward 4294967293)
  have more := combined_of_perm (perm_forward 4294967295) (bounded_forward 4294967295)
  have addable : Addable (forward 4294967293).members := ⟨by decide, by decide⟩
  have never : ¬ Addable (forward 4294967295).members := fun addable =>
    absurd addable.documents (by decide)
  obtain ⟨s, t, summed, summed', same, documents, -, -, termId, -⟩ := fewer.1 addable
  exact ⟨⟨s, t, summed, summed', same, documents, termId⟩, more.2.1 never⟩

end TermStatistics

end IndexMerge
