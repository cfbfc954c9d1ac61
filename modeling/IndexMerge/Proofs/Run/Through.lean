import IndexMerge.Proofs.Run.Truncated
import IndexMerge.Proofs.Run.Walk

/-!
# Reading a run through

A cursor is advanced to one entry after another and asked for all postings of each, up to the first
failure (`RunCursor.readThrough`). A cursor that goes over the entries of a run gives these entries
and comes to an end (`readThrough_of_walks`). A cursor that falls short of the entries gives a part
of them and fails (`FallsShort.readThrough`).
-/

namespace IndexMerge

open PostingSource

/-- What is given when a run is read: an entry begins, or a posting of the entry follows. -/
inductive RunItem where
  | entry (term : Term) (statistics : TermStatistics)
  | posting (p : Posting)
  deriving DecidableEq, Repr

/-- An entry as it is read. -/
def RunEntry.items (e : RunEntry) : List RunItem :=
  .entry e.term e.statistics :: e.postings.map .posting

/-- With a part of its postings a part of an entry is read. -/
theorem RunEntry.items_prefix {e part : RunEntry} (term : part.term = e.term)
    (statistics : part.statistics = e.statistics) (postings : part.postings <+: e.postings) :
    part.items <+: e.items := by
  unfold items
  rw [term, statistics, List.cons_prefix_cons]
  exact ⟨rfl, postings.map RunItem.posting⟩

/-- A run as it is read. -/
def Run.items (run : Run) : List RunItem := run.entries.toList.flatMap RunEntry.items

namespace RunCursor

variable {C : Type} [RunCursor C]

/-- Gives the postings of the entry that are ahead, up to the first failure. -/
def drainPostings (c : C) : Except Error Unit × List Posting × C :=
  match _h : nextPosting c with
  | (.error e, c) => (.error e, [], c)
  | (.ok none, c) => (.ok (), [], c)
  | (.ok (some p), c') =>
    let (result, postings, c) := drainPostings c'
    (result, p :: postings, c)
termination_by postingsLeft c
decreasing_by exact postingsLeft_nextPosting _h

theorem entriesLeft_drainPostings (c : C) : entriesLeft (drainPostings c).2.2 = entriesLeft c := by
  fun_induction drainPostings c with
  | case1 c e c' failed =>
    rw [← entriesLeft_nextPosting c, failed]
  | case2 c c' ended =>
    rw [← entriesLeft_nextPosting c, ended]
  | case3 c p c' given result postings c'' drained ih =>
    rw [drained] at ih
    rw [← entriesLeft_nextPosting c, given]
    exact ih

/-- Gives all entries that are ahead with their postings, up to the first failure. -/
def readThrough (c : C) : Except Error Unit × List RunItem :=
  if hasNext c then
    match _h : advance c with
    | (.error e, _) => (.error e, [])
    | (.ok (), c') =>
      match _d : drainPostings (openPostings c') with
      | (.error e, postings, _) => (.error e, RunEntry.items ⟨term c', statistics c', postings⟩)
      | (.ok (), postings, c'') =>
        let (result, items) := readThrough c''
        (result, RunEntry.items ⟨term c', statistics c', postings⟩ ++ items)
  else (.ok (), [])
termination_by entriesLeft c
decreasing_by
  have fewer := entriesLeft_advance _h
  have same := entriesLeft_drainPostings (openPostings c')
  rw [_d, entriesLeft_openPostings] at same
  exact same ▸ fewer

end RunCursor


namespace Lease

variable {C : Type} [RunCursor C]

/-- A cursor that yields postings gives them. -/
theorem drainPostings_of_yields {lease after : Lease C} {postings : List Posting}
    (yields : Yields lease postings after) :
    RunCursor.drainPostings lease.cursor = (.ok (), postings, after.cursor) := by
  induction postings generalizing lease with
  | nil =>
    unfold RunCursor.drainPostings
    split <;> rename_i asked <;> cases asked.symm.trans (next_eq yields)
    rfl
  | cons p postings ih =>
    obtain ⟨later, given, yields⟩ := yields
    unfold RunCursor.drainPostings
    split <;> rename_i asked <;> cases asked.symm.trans (next_eq given)
    rw [ih yields]

/-- A cursor that goes over entries gives them and comes to an end. -/
theorem readThrough_of_walks {run : Nat} {lease : Lease C} {entries : List RunEntry}
    (walks : lease.Walks run entries) :
    RunCursor.readThrough lease.cursor = (.ok (), entries.flatMap RunEntry.items) := by
  induction entries generalizing lease with
  | nil =>
    unfold RunCursor.readThrough
    rw [if_neg (by simp [walks.hasNext_eq])]
    rfl
  | cons e entries ih =>
    obtain ⟨-, ahead, cursor, advanced, -, term, statistics, after, yields, walks⟩ := walks
    have drained := drainPostings_of_yields yields
    unfold RunCursor.readThrough
    rw [if_pos ahead]
    split <;> rename_i asked <;> cases asked.symm.trans advanced
    dsimp only
    split <;> rename_i given <;> cases given.symm.trans drained
    rw [ih walks, term, statistics]
    rfl

end Lease

namespace StoredCursor.FallsShort

variable {c : StoredCursor} {postings : List Posting} {entries : List RunEntry}

/-- A cursor that falls short gives a part of the postings and fails, or it gives all of them and
falls short of the entries behind. -/
theorem drainPostings (short : c.FallsShort postings entries) :
    let (result, given, after) := RunCursor.drainPostings c
    (∃ e, result = .error e) ∧ given <+: postings ∨
      result = .ok () ∧ given = postings ∧ after.FallsShort [] entries := by
  fun_induction RunCursor.drainPostings c generalizing postings with
  | case1 c e c' failed => exact .inl ⟨⟨e, rfl⟩, List.nil_prefix⟩
  | case2 c c' ended =>
    obtain ⟨rfl, rfl⟩ := short.nextPosting_none ended
    exact .inr ⟨rfl, rfl, short⟩
  | case3 c p c' given result others c'' drained ih =>
    obtain ⟨rest, rfl, shorter⟩ := short.nextPosting given
    have split := ih shorter
    rw [drained] at split
    rcases split with ⟨failed, part⟩ | ⟨ended, rfl, shortest⟩
    · exact .inl ⟨failed, List.cons_prefix_cons.mpr ⟨rfl, part⟩⟩
    · exact .inr ⟨ended, rfl, shortest⟩

/-- A cursor that falls short of entries gives a part of them and fails. -/
theorem readThrough (short : c.FallsShort [] entries) :
    let (result, given) := RunCursor.readThrough c
    (∃ e, result = .error e) ∧ given <+: entries.flatMap RunEntry.items := by
  fun_induction RunCursor.readThrough c generalizing entries with
  | case1 c ahead e c' failed => exact ⟨⟨e, rfl⟩, List.nil_prefix⟩
  | case2 c ahead c' advanced e given c'' drained =>
    obtain ⟨first, rest, rfl, term, statistics, onEntry⟩ := short.advance advanced
    have split := onEntry.openPostings.drainPostings
    rw [show RunCursor.drainPostings c'.openPostings = _ from drained] at split
    rcases split with ⟨-, part⟩ | ⟨ended, -⟩
    · have begun : RunEntry.items ⟨c'.term, c'.statistics, given⟩ <+: first.items :=
        RunEntry.items_prefix term statistics part
      exact ⟨⟨e, rfl⟩, begun.trans (List.prefix_append ..)⟩
    · cases ended
  | case3 c ahead c' advanced given c'' drained result items read ih =>
    obtain ⟨first, rest, rfl, term, statistics, onEntry⟩ := short.advance advanced
    have split := onEntry.openPostings.drainPostings
    rw [show RunCursor.drainPostings c'.openPostings = _ from drained] at split
    rcases split with ⟨⟨e, failed⟩, -⟩ | ⟨-, rfl, shorter⟩
    · cases failed
    · have behind := ih shorter
      rw [read] at behind
      refine ⟨behind.1, ?_⟩
      show RunEntry.items ⟨c'.term, c'.statistics, first.postings⟩ ++ items <+: _
      rw [term, statistics]
      exact (List.prefix_append_right_inj first.items).mpr behind.2
  | case4 c ended =>
    exact absurd short.hasNext ended

end StoredCursor.FallsShort

end IndexMerge
