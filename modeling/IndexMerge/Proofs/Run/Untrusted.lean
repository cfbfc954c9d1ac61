import IndexMerge.Proofs.Posting.Given
import IndexMerge.Proofs.Run.Exact
import IndexMerge.Proofs.Run.Walk
import IndexMerge.Run.Stored

/-!
# What a cursor over any bytes keeps to

Nothing is assumed of the bytes of a stored run. A cursor over them still goes to greater terms
only (`advance_eq_ok`), and the documents of the postings that it gives lie in the range of the
header (`range_of_nextPosting`).
-/

namespace IndexMerge

open Attempt PostingSource

/-- The blocks of a posting that was read were counted by a word of 32 bits. -/
theorem Posting.length_blocks_of_decode {layout : Layout} {source rest : ByteSource} {p : Posting}
    (read : decode layout source = (.ok p, rest)) : p.blocks.length < UInt32.size := by
  obtain ⟨_, ⟨shaped, -⟩, -⟩ := exact_decode layout source rest p read
  exact shaped.short

/-- The range of a header that is read does not end before it begins. -/
theorem RunHeader.range_of_decode {source rest : ByteSource} {h : RunHeader}
    (read : decode source = (.ok h, rest)) : h.firstDoc ≤ h.lastDoc := by
  obtain ⟨_, ⟨range, -⟩, -⟩ := exact_decode source rest h read
  exact range

namespace StoredCursor

variable {c c' : StoredCursor} {p : Posting}

/-- A document that is accepted lies in the range of the header. -/
theorem range_of_checkDoc {doc : UInt32} (checked : c.checkDoc doc = .ok ()) :
    c.header.firstDoc ≤ doc ∧ doc ≤ c.header.lastDoc := by
  unfold checkDoc at checked
  split at checked
  · cases checked
  · rename_i inside
    simpa [UInt32.not_lt] using inside

/-- A document that is accepted is not one that comes before the one given last. -/
theorem follows_of_checkDoc {doc : UInt32} (checked : c.checkDoc doc = .ok ()) :
    c.lastDoc.filter (doc ≤ ·) = none := by
  unfold checkDoc at checked
  split at checked
  · cases checked
  · split at checked
    · cases checked
    · assumption

/-- What a cursor says of its run and of the entry on which it stands. -/
def standing (c : StoredCursor) : RunHeader × Term × Bool := (c.header, c.term, c.isPositioned)

theorem standing_nextPosting (c : StoredCursor) : (nextPosting c).2.standing = c.standing := by
  unfold nextPosting
  split
  · split
    · rfl
    · dsimp only
      split
      · rfl
      · split <;> rfl
  · rfl

/-- A posting that is given was decoded from the bytes ahead, within the length of the postings. -/
theorem nextPosting_eq_some (given : nextPosting c = (.ok (some p), c')) :
    ∃ source rest pending, c.source = some source ∧ c.pendingPostings = pending + 1 ∧
      Posting.decode c.header.layout source = (.ok p, rest) ∧
      p.storedSize c.header.layout ≤ c.pendingBytes ∧ c.checkDoc p.docId = .ok () ∧
      c' = { c with
        source := some rest
        pendingPostings := pending
        pendingBytes := c.pendingBytes - p.storedSize c.header.layout
        lastDoc := some p.docId } := by
  rw [nextPosting_decode] at given
  split at given
  · rename_i source pending isOpen count
    split at given
    · cases given
    · rename_i read
      dsimp only at given
      split at given
      · cases given
      · rename_i within
        split at given
        · cases given
        · rename_i checked
          cases given
          exact ⟨source, _, pending, isOpen, count, read, Nat.le_of_not_lt within, checked, rfl⟩
  · cases given

/-- At the end of the postings the cursor stays as it is. -/
theorem nextPosting_eq_none (ended : nextPosting c = (.ok none, c')) :
    (c.source = none ∨ c.pendingPostings = 0) ∧ c' = c := by
  unfold nextPosting at ended
  split at ended
  · split at ended
    · cases ended
    · dsimp only at ended
      split at ended
      · cases ended
      · split at ended <;> cases ended
  · rename_i spent
    cases ended
    refine ⟨?_, rfl⟩
    cases isOpen : c.source with
    | none => exact .inl rfl
    | some source =>
      cases count : c.pendingPostings with
      | zero => exact .inr rfl
      | succ pending => exact absurd count (spent source pending isOpen)

/-- A posting that is given lies in the range of the header. -/
theorem range_of_nextPosting (given : nextPosting c = (.ok (some p), c')) :
    c.header.firstDoc ≤ p.docId ∧ p.docId ≤ c.header.lastDoc ∧
      p.blocks.length < UInt32.size := by
  obtain ⟨_, _, _, _, _, read, _, checked, _⟩ := nextPosting_eq_some given
  obtain ⟨low, high⟩ := range_of_checkDoc checked
  exact ⟨low, high, Posting.length_blocks_of_decode read⟩

/-- A head that is accepted follows the last term. -/
theorem decodeHead_eq_ok {layout : Layout} {last : Option Term} {source rest : ByteSource}
    {head : EntryHead} (read : decodeHead layout last source = (.ok head, rest)) :
    EntryHead.decode layout source = (.ok head, rest) ∧
      ∀ term, last = some term → term.precedes head.term = true := by
  unfold decodeHead at read
  obtain ⟨decoded, middle, decode, read⟩ := bind_eq_ok.mp read
  cases last with
  | none =>
    cases read
    exact ⟨decode, nofun⟩
  | some last =>
    cases before : last.precedes decoded.term with
    | false =>
      rw [Option.filter_some, before] at read
      cases read
    | true =>
      rw [Option.filter_some, before] at read
      cases read
      refine ⟨decode, fun term same => ?_⟩
      rwa [← Option.some.inj same]

/-- A cursor that is started has read a header, and is before all entries of which this speaks. -/
theorem exists_of_start {name : String} {source : ByteSource}
    (started : start name source = .ok c) :
    ∃ header rest, RunHeader.decode source = (.ok header, rest) ∧
      c = {
        source := some rest
        name, header
        term := []
        statistics := .empty
        isPositioned := false
        remainingTerms := header.termCount.toNat
        pendingPostings := 0
        pendingBytes := 0
        lastDoc := none } := by
  unfold start at started
  split at started <;> rename_i read <;> cases started
  exact ⟨_, _, read, rfl⟩

/-- An advance passes over the postings that are pending and decodes a head. -/
theorem exists_of_advance (advanced : advance c = (.ok (), c')) :
    ∃ source middle rest remaining head, c.source = some source ∧
      c.remainingTerms = remaining + 1 ∧
      skipPostings c.term c.pendingBytes source = (.ok (), middle) ∧
      decodeHead c.header.layout (if c.isPositioned then some c.term else none) middle =
        (.ok head, rest) ∧
      c' = { c with
        source := some rest
        term := head.term
        statistics := head.statistics
        isPositioned := true
        remainingTerms := remaining
        pendingPostings := head.statistics.documentFrequency.toNat
        pendingBytes := head.postingBytes
        lastDoc := none } := by
  unfold advance at advanced
  split at advanced
  · cases advanced
  · rename_i source isOpen
    split at advanced
    · cases advanced
    · rename_i remaining count
      dsimp only at advanced
      split at advanced
      · cases advanced
      · rename_i read
        cases advanced
        obtain ⟨_, middle, skipped, read⟩ := bind_eq_ok.mp read
        exact ⟨source, middle, _, remaining, _, isOpen, count, skipped, read, rfl⟩

/-- An advance stays in the run and goes to a greater term. -/
theorem advance_eq_ok (advanced : advance c = (.ok (), c')) :
    c'.header = c.header ∧ c'.isPositioned = true ∧
      (c.isPositioned = true → c.term.precedes c'.term = true) := by
  obtain ⟨_, _, _, _, _, _, _, _, read, rfl⟩ := exists_of_advance advanced
  refine ⟨rfl, rfl, fun positioned => (decodeHead_eq_ok read).2 c.term ?_⟩
  rw [if_pos positioned]

end StoredCursor

namespace Lease

variable {lease : Lease StoredCursor}

/-- The number of its run, and what the cursor of a lease says. -/
def standing (lease : Lease StoredCursor) : Nat × RunHeader × Term × Bool :=
  (lease.position, lease.cursor.standing)

theorem standing_openPostings (lease : Lease StoredCursor) :
    lease.openPostings.standing = lease.standing := rfl

theorem standing_next (lease : Lease StoredCursor) :
    (PostingSource.next lease).2.standing = lease.standing :=
  congrArg (Prod.mk lease.position) (StoredCursor.standing_nextPosting lease.cursor)

/-- A posting lies in the range of documents of a run, and its blocks were counted. -/
def Covers (lease : Lease StoredCursor) (p : Posting) : Prop :=
  lease.cursor.header.firstDoc ≤ p.docId ∧ p.docId ≤ lease.cursor.header.lastDoc ∧
    p.blocks.length < UInt32.size

theorem mayGive_covers : MayGive (σ := Lease StoredCursor) Covers where
  given := by
    intro s s' p given
    exact StoredCursor.range_of_nextPosting (next_eq given)
  later := by
    intro s p covers
    have kept := congrArg (fun standing => standing.2.1) (standing_next s)
    have same : (PostingSource.next s).2.cursor.header = s.cursor.header := kept
    unfold Covers at covers ⊢
    rwa [same] at covers

end Lease

end IndexMerge
