import IndexMerge.Proofs.Run.Exact
import IndexMerge.Proofs.Run.Refinement
import IndexMerge.Proofs.Run.Untrusted

/-!
# Passing over what was not asked for

A posting takes just the bytes that it is written as, so whatever was decoded of an entry, the bytes
left of its recorded length end at the same place (`StoredCursor.Behind`), and the next advance does
the same there as if nothing had been asked for (`Behind.advance`). So what advances show does not
depend on the postings that are asked for between them, whatever the bytes are (`walk_of_quiet`).
-/

namespace IndexMerge

open Attempt

namespace RunCursor

variable {C : Type} [RunCursor C]

/-- What a cursor shows after an advance with this result. -/
def shows (result : Except Error Unit) (c : C) :
    Except Error Unit × Term × TermStatistics × Bool :=
  (result, term c, statistics c, hasNext c)

/-- The postings of an entry are begun again and again, and asked for so many times each. -/
def pullEach : List Nat → C → List (Except Error (Option Posting)) × C
  | [], c => ([], c)
  | count :: counts, c =>
    let (results, c) := pull count (openPostings c)
    let (others, c) := pullEach counts c
    (results ++ others, c)

/-- Advances a cursor up to the first failure. Behind each advance the postings are asked for as
often as the schedule says. Gives what the cursor showed after each advance, and what was asked
for. -/
def walk : List (List Nat) → C →
    List (Except Error Unit × Term × TermStatistics × Bool) ×
      List (Except Error (Option Posting))
  | [], _ => ([], [])
  | counts :: schedule, c =>
    match advance c with
    | (.error e, c) => ([shows (.error e) c], [])
    | (.ok (), c) =>
      let (pulled, after) := pullEach counts c
      let (shown, others) := walk schedule after
      (shows (.ok ()) c :: shown, pulled ++ others)

end RunCursor

open RunCursor

namespace StoredCursor

/-- Pending bytes are passed over in parts. -/
theorem skipPostings_append (term : Term) (front : List UInt8) (pending : Nat)
    (bytes : List UInt8) (fault : Option IoFault) :
    skipPostings term (front.length + pending) ⟨front ++ bytes, fault⟩ =
      skipPostings term pending ⟨bytes, fault⟩ := by
  have both : ByteSource.skip (front.length + pending) ⟨front ++ bytes, fault⟩ =
      ((front.length + ·) <$> ByteSource.skip pending) ⟨bytes, fault⟩ := by
    rw [map_apply]
    unfold ByteSource.skip
    dsimp only
    rw [List.take_length_add_append, List.drop_length_add_append, List.length_append]
    cases fault with
    | none => rfl
    | some fault =>
      simp only [Nat.add_lt_add_iff_left]
      split <;> rfl
  unfold skipPostings
  rw [bind_apply, bind_apply, rename, rename, both, map_apply]
  rcases ByteSource.skip pending ⟨bytes, fault⟩ with ⟨e | skipped, rest⟩
  · rfl
  · simp only [ne_eq, Nat.add_left_cancel_iff]

/-- The second cursor stands on the same entry as the first one, and decoded a front of the bytes
that are pending for the first one. -/
def Behind (base c : StoredCursor) : Prop :=
  ∃ front source postings bytes last,
    base.source = some ⟨front ++ source.bytes, source.fault⟩ ∧
    base.pendingBytes = front.length + bytes ∧
    c = { base with
      source := some source
      pendingPostings := postings
      pendingBytes := bytes
      lastDoc := last }

namespace Behind

variable {base c : StoredCursor}

theorem refl {source : ByteSource} (isOpen : base.source = some source) : Behind base base :=
  ⟨[], source, base.pendingPostings, base.pendingBytes, base.lastDoc, isOpen,
    (Nat.zero_add _).symm, by rw [← isOpen]⟩

theorem openPostings (h : Behind base c) : Behind base c.openPostings := by
  obtain ⟨front, source, postings, bytes, last, begins, length, rfl⟩ := h
  exact ⟨front, source, postings, bytes, none, begins, length, rfl⟩

/-- A posting that is given takes its bytes from those that are pending. -/
theorem nextPosting (h : Behind base c) (given : (StoredCursor.nextPosting c).1.isOk = true) :
    Behind base (StoredCursor.nextPosting c).2 := by
  rcases asked : StoredCursor.nextPosting c with ⟨e | _ | p, c'⟩
  · rw [asked] at given
    cases given
  · obtain ⟨-, rfl⟩ := nextPosting_eq_none asked
    exact h
  · obtain ⟨source, rest, pending, isOpen, -, read, within, -, rfl⟩ := nextPosting_eq_some asked
    obtain ⟨front, source', postings, bytes, last, begins, length, rfl⟩ := h
    obtain rfl := Option.some.inj isOpen
    obtain ⟨code, ⟨-, rfl⟩, taken⟩ := Posting.exact_decode _ _ _ _ read
    obtain rfl : source' = ⟨p.encode base.header.layout ++ rest.bytes, rest.fault⟩ := taken
    have size := Posting.length_encode base.header.layout p
    refine ⟨front ++ p.encode base.header.layout, rest, pending, _, _, ?_, ?_, rfl⟩
    · rw [List.append_assoc]
      exact begins
    · rw [List.length_append, size, length]
      dsimp only at within ⊢
      omega

theorem pull (h : Behind base c) (count : Nat)
    (quiet : ∀ result ∈ (RunCursor.pull count c).1, result.isOk = true) :
    Behind base (RunCursor.pull count c).2 := by
  induction count generalizing c with
  | zero => exact h
  | succ count ih =>
    refine ih (h.nextPosting (quiet _ List.mem_cons_self)) fun result member => ?_
    exact quiet result (List.mem_cons_of_mem _ member)

theorem pullEach (h : Behind base c) (counts : List Nat)
    (quiet : ∀ result ∈ (RunCursor.pullEach counts c).1, result.isOk = true) :
    Behind base (RunCursor.pullEach counts c).2 := by
  induction counts generalizing c with
  | nil => exact h
  | cons count counts ih =>
    refine ih (h.openPostings.pull count fun result member => ?_) fun result member => ?_
    · exact quiet result (List.mem_append_left _ member)
    · exact quiet result (List.mem_append_right _ member)

/-- An advance leads from both cursors to the same one, or fails and shows the same. -/
theorem advance (h : Behind base c) :
    (∃ e after after', StoredCursor.advance c = (.error e, after) ∧
      StoredCursor.advance base = (.error e, after') ∧
      shows (.error e) after = shows (.error e) after') ∨
      ∃ next source, StoredCursor.advance c = (.ok (), next) ∧
        StoredCursor.advance base = (.ok (), next) ∧ next.source = some source := by
  obtain ⟨front, source, postings, bytes, last, begins, length, rfl⟩ := h
  obtain ⟨_, name, header, term, statistics, isPositioned, remaining, pending, _, doc⟩ := base
  obtain rfl : _ = some _ := begins
  obtain rfl : _ = front.length + bytes := length
  cases remaining with
  | zero => exact Or.inl ⟨_, _, _, rfl, rfl, rfl⟩
  | succ remaining =>
    unfold StoredCursor.advance
    dsimp only
    rw [bind_apply, bind_apply, skipPostings_append, ← bind_apply]
    generalize (_ >>= _ : Decode EntryHead) source = step
    obtain ⟨e | head, rest⟩ := step
    · exact Or.inl ⟨_, _, _, rfl, rfl, rfl⟩
    · exact Or.inr ⟨_, rest, rfl, rfl, rfl⟩

/-- As long as nothing that is asked for fails, advances show what they show if nothing is asked
for. -/
theorem walk (h : Behind base c) (schedule : List (List Nat))
    (quiet : ∀ result ∈ (RunCursor.walk schedule c).2, result.isOk = true) :
    (RunCursor.walk schedule c).1 = (RunCursor.walk (schedule.map fun _ => []) base).1 := by
  induction schedule generalizing base c with
  | nil => rfl
  | cons counts schedule ih =>
    have first : RunCursor.advance c = StoredCursor.advance c := rfl
    have first' : RunCursor.advance base = StoredCursor.advance base := rfl
    rw [List.map_cons]
    unfold RunCursor.walk at quiet ⊢
    rw [first] at quiet ⊢
    rw [first']
    obtain ⟨e, after, after', failed, failed', same⟩ | ⟨next, source, done, done', isOpen⟩ :=
      h.advance
    · rw [failed, failed']
      exact congrArg (fun shown => [shown]) same
    · rw [done] at quiet ⊢
      rw [done']
      dsimp only at quiet ⊢
      have still : Behind next (RunCursor.pullEach counts next).2 :=
        (refl isOpen).pullEach counts fun result member =>
          quiet result (List.mem_append_left _ member)
      rw [ih still fun result member => quiet result (List.mem_append_right _ member)]
      rfl

end Behind

/-- A cursor over any bytes is advanced up to the first failure, and behind each advance the
postings of the entry are begun any number of times and asked for any number of times each. If none
of those asked for fails, what the cursor shows after each advance, its result, the term, the
statistics and whether there are entries ahead, is the same for all such schedules with as many
advances. So it is what it is if no postings are asked for at all. -/
theorem walk_of_quiet {name : String} {source : ByteSource} {c : StoredCursor}
    (started : start name source = .ok c) (schedule schedule' : List (List Nat))
    (same : schedule.length = schedule'.length)
    (quiet : ∀ result ∈ (RunCursor.walk schedule c).2, result.isOk = true)
    (quiet' : ∀ result ∈ (RunCursor.walk schedule' c).2, result.isOk = true) :
    (RunCursor.walk schedule c).1 = (RunCursor.walk schedule' c).1 := by
  obtain ⟨_, rest, -, begins⟩ := exists_of_start started
  have isOpen : c.source = some rest := congrArg StoredCursor.source begins
  have behind := Behind.refl isOpen
  rw [behind.walk schedule quiet, behind.walk schedule' quiet', List.map_const', List.map_const',
    same]

/-- Of the first term of this run more bytes are recorded than its postings take, and of the second
one more than there are. -/
def slackRun : List UInt8 :=
  RunHeader.encode ⟨0, ⟨0, false⟩, 3, 0, 9, 4⟩ ++
    EntryHead.encode ⟨[97], ⟨2, 2, [], none, none⟩, 18⟩ ++
    Posting.encode ⟨0, false⟩ ⟨1, 1, [], []⟩ ++ Posting.encode ⟨0, false⟩ ⟨4, 1, [], []⟩ ++
    [7, 7] ++
    EntryHead.encode ⟨[98], ⟨1, 1, [], none, none⟩, 100⟩ ++
    Posting.encode ⟨0, false⟩ ⟨5, 1, [], []⟩

/-- Postings are asked for in two parts and past their end, or not at all, and the third advance
fails alike. -/
theorem walk_of_quiet_slackRun :
    ∃ c, start "a" (.ofList slackRun) = .ok c ∧
      (RunCursor.walk [[1, 0, 1, 2], [1], []] c).1 = (RunCursor.walk [[], [], [4]] c).1 ∧
      (RunCursor.walk [[], [], [4]] c).1 =
        [(.ok (), [97], ⟨2, 2, [], none, none⟩, true), (.ok (), [98], ⟨1, 1, [], none, none⟩, true),
          (.error (.format (.truncatedPostings [98])), [98], ⟨1, 1, [], none, none⟩, true)] := by
  refine ⟨_, rfl, ?_, ?_⟩
  · refine walk_of_quiet (show start "a" (.ofList slackRun) = .ok _ from rfl) _ _ rfl ?_ ?_
    · decide +kernel
    · decide +kernel
  · decide +kernel

end StoredCursor

end IndexMerge
