import IndexMerge.Proofs.Run.Exact
import IndexMerge.Proofs.Run.Spill
import IndexMerge.Proofs.Run.Untrusted

/-!
# Cursors over truncated runs

A run whose last bytes are missing is never read to its end. Its cursor falls short of the entries
that its header counts (`StoredCursor.FallsShort`): whatever it gives is what was stored, and as
long as it does not fail, it falls short of what is left (`FallsShort.nextPosting`,
`FallsShort.advance`). A cursor that was asked for all postings of its entry still has a next entry
to go to then, so it cannot come to an ordinary end.
-/

namespace IndexMerge

open Attempt PostingSource

namespace StoredCursor

/-- Of these postings of the cursor's entry and of the entries behind them some bytes are missing at
the end. -/
structure FallsShort (c : StoredCursor) (postings : List Posting) (entries : List RunEntry) :
    Prop where
  cut : ∃ source missing, c.source = some source ∧ missing ≠ [] ∧
    source.bytes ++ missing = postings.flatMap (Posting.encode c.header.layout) ++
      entries.flatMap (RunEntry.encode c.header.layout)
  remaining_eq : c.remainingTerms = entries.length
  count_eq : c.pendingPostings = postings.length
  bytes_le : c.pendingBytes ≤ (postings.flatMap (Posting.encode c.header.layout)).length
  postings : ∀ p ∈ postings, p.Legible c.header.layout
  entries : ∀ e ∈ entries, e.Legible c.header.layout

namespace FallsShort

variable {c c' : StoredCursor} {p : Posting} {postings : List Posting} {entries : List RunEntry}

theorem openPostings (short : c.FallsShort postings entries) :
    c.openPostings.FallsShort postings entries :=
  ⟨short.cut, short.remaining_eq, short.count_eq, short.bytes_le, short.postings, short.entries⟩

/-- A posting that is given is the next one that was stored. -/
theorem nextPosting (short : c.FallsShort postings entries)
    (given : nextPosting c = (.ok (some p), c')) :
    ∃ rest, postings = p :: rest ∧ c'.FallsShort rest entries := by
  obtain ⟨source, behind, pending, isOpen, count, read, within, -, rfl⟩ := nextPosting_eq_some given
  obtain ⟨_, missing, same, some, bytes⟩ := short.cut
  cases isOpen.symm.trans same
  cases postings with
  | nil => cases count.symm.trans short.count_eq
  | cons q rest =>
    rw [List.flatMap_cons, List.append_assoc] at bytes
    have legible := short.postings q (List.mem_cons_self ..)
    obtain ⟨rfl, -, bytes, -⟩ := (Posting.local_decode c.header.layout).of_reads
      (Posting.reads_decode (legible.fits.shaped legible.blocks)) read bytes
    have length := short.bytes_le
    rw [List.flatMap_cons, List.length_append, Posting.length_encode] at length
    refine ⟨rest, rfl, ⟨_, missing, rfl, some, bytes⟩, short.remaining_eq, ?_, ?_, ?_,
      short.entries⟩
    · exact Nat.succ.inj (count.symm.trans short.count_eq)
    · exact Nat.sub_le_of_le_add (by rwa [Nat.add_comm] at length)
    · exact fun q member => short.postings q (List.mem_cons_of_mem p member)

/-- No end of the postings is given before they are all given. -/
theorem nextPosting_none (short : c.FallsShort postings entries)
    (ended : StoredCursor.nextPosting c = (.ok none, c')) : postings = [] ∧ c' = c := by
  obtain ⟨spent, rfl⟩ := nextPosting_eq_none ended
  obtain ⟨_, _, isOpen, -⟩ := short.cut
  have count := short.count_eq
  rcases spent with closed | none
  · cases closed.symm.trans isOpen
  · exact ⟨List.length_eq_zero_iff.mp (count.symm.trans none), rfl⟩

/-- Behind all postings of an entry there is another entry. -/
theorem exists_entry (short : c.FallsShort [] entries) : ∃ e rest, entries = e :: rest := by
  cases entries with
  | nil =>
    obtain ⟨_, missing, -, some, bytes⟩ := short.cut
    exact absurd (List.append_eq_nil_iff.mp bytes).2 some
  | cons e rest => exact ⟨e, rest, rfl⟩

theorem hasNext (short : c.FallsShort [] entries) : c.hasNext = true := by
  obtain ⟨e, rest, rfl⟩ := short.exists_entry
  obtain ⟨_, _, isOpen, -⟩ := short.cut
  simp [StoredCursor.hasNext, isOpen, short.remaining_eq]

/-- An advance goes to the next entry that was stored. -/
theorem advance (short : c.FallsShort [] entries) (advanced : advance c = (.ok (), c')) :
    ∃ e rest, entries = e :: rest ∧ c'.term = e.term ∧ c'.statistics = e.statistics ∧
      c'.FallsShort e.postings rest := by
  obtain ⟨e, rest, rfl⟩ := short.exists_entry
  obtain ⟨source, middle, behind, remaining, head, isOpen, count, skipped, read, rfl⟩ :=
    exists_of_advance advanced
  obtain ⟨_, missing, same, some, bytes⟩ := short.cut
  cases isOpen.symm.trans same
  -- nothing is passed over
  have none : c.pendingBytes = 0 := Nat.le_zero.mp short.bytes_le
  have nothing : Reads (skipPostings c.term 0) [] () := reads_skipPostings c.term []
  rw [none, nothing.of_bytes rfl] at skipped
  cases skipped
  have ⟨decoded, _⟩ := decodeHead_eq_ok read
  rw [List.flatMap_nil, List.nil_append, List.flatMap_cons] at bytes
  have legible := short.entries e (List.mem_cons_self ..)
  obtain ⟨announces, bytes⟩ := EntryHead.decode_of_cut legible.sound decoded bytes
  refine ⟨e, rest, rfl, announces.term_eq, announces.statistics_eq,
    ⟨_, missing, rfl, some, bytes⟩, ?_, announces.count_eq, announces.bytes_le,
    legible.postings, ?_⟩
  · exact Nat.succ.inj (count.symm.trans short.remaining_eq)
  · exact fun other member => short.entries other (List.mem_cons_of_mem e member)

/-- A cursor that comes to the end of the postings of its entry has given those that were stored. -/
theorem of_yields {lease after : Lease StoredCursor} {given : List Posting}
    (short : lease.cursor.FallsShort postings entries) (yields : Yields lease given after) :
    given = postings ∧ after.cursor.FallsShort [] entries := by
  induction given generalizing lease postings with
  | nil =>
    obtain ⟨rfl, same⟩ := short.nextPosting_none (Lease.next_eq yields)
    exact ⟨rfl, same ▸ short⟩
  | cons p given ih =>
    obtain ⟨_, asked, yields⟩ := yields
    obtain ⟨rest, rfl, shorter⟩ := short.nextPosting (Lease.next_eq asked)
    obtain ⟨rfl, shortest⟩ := ih shorter yields
    exact ⟨rfl, shortest⟩

end FallsShort

end StoredCursor

namespace Run

variable {run : Run} {index : Nat} {layout : Layout} {header : RunHeader} {source : ByteSource}

/-- A cursor over a part of the bytes of a run falls short of its entries. -/
theorem fallsShort_start {name : String} {cursor : StoredCursor}
    (describes : Describes header index run)
    (legible : ∀ e ∈ run.entries.toList, e.Legible header.layout)
    (part : source.bytes <+: storedBytes header run)
    (proper : source.bytes ≠ storedBytes header run)
    (started : StoredCursor.start name source = .ok cursor) :
    cursor.FallsShort [] run.entries.toList := by
  obtain ⟨missing, some, bytes⟩ := exists_missing part proper
  obtain ⟨_, _, read, rfl⟩ := StoredCursor.exists_of_start started
  obtain ⟨rfl, -, bytes, -⟩ := RunHeader.local_decode.of_reads
    (RunHeader.reads_decode describes.range_le) read bytes
  refine ⟨⟨_, missing, rfl, some, bytes⟩, ?_, rfl, Nat.le_refl 0, by simp, legible⟩
  exact describes.count_eq.trans Array.length_toList.symm

end Run

end IndexMerge
