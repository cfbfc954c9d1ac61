import IndexMerge.Command.Merge
import IndexMerge.Proofs.Merge.Lockstep
import IndexMerge.Proofs.Merge.Retained

/-!
# The index of a merge

A merge that succeeds leaves an inverted file and a lexicon that belong together (`Indexes`),
whatever was merged (`indexes_of_run`). Such a lexicon is read back as its entries, and the list of
each is read from the inverted file (`Indexes.items_eq`, `Indexes.leads`).
-/

namespace IndexMerge

open FaithfulSink

variable {layout : Layout} {inverted lexicon : Array UInt8} {entries : List LexiconEntry}

/-- An entry with number `k` leads to its list in an inverted file: the list is read from the place
in the entry and has as many postings as the entry says. Its documents ascend, and in each of them
the term occurs. -/
structure LexiconEntry.Leads (layout : Layout) (inverted : Array UInt8) (k : Nat)
    (e : LexiconEntry) (place : BitPosition) (list : List Posting) : Prop where
  number : ∃ id, e.statistics.termId = some id ∧ id.toNat = k
  pointer_eq : e.statistics.pointer = some place
  read : readPostings inverted place e.statistics.documentFrequency.toNat layout = .ok list
  length_eq : list.length = e.statistics.documentFrequency.toNat
  ascending : (list.map Posting.docId).Pairwise (· < ·)
  positive : ∀ p ∈ list, 1 ≤ p.frequency

/-- The lexicon of some entries, each of which may come behind those before it, and an inverted file
with a list for each, as long as the entry says. -/
structure Indexes (layout : Layout) (inverted lexicon : Array UInt8)
    (entries : List LexiconEntry) : Prop where
  lexicon_eq : lexicon.toList = LexiconFormat.header layout ++
    (entries.flatMap LexiconEntry.encode ++ LexiconFormat.trailer entries.length)
  ordered : accepted layout entries = entries
  lists : ∀ e ∈ entries, ∃ place list, e.statistics.pointer = some place ∧
    PostingWriter.Codes layout (bytesBits inverted.toList) place list ∧
    list.length = e.statistics.documentFrequency.toNat

namespace Indexes

variable (h : Indexes layout inverted lexicon entries)

include h

theorem follows {k : Nat} (hk : k < entries.length) :
    entries[k].Follows layout (entries.take k) := by
  have split : entries.take k ++ entries[k] :: entries.drop (k + 1) = entries := by
    rw [List.getElem_cons_drop, List.take_append_drop]
  exact (follows_of_accepted (h.ordered.trans split.symm)).2

/-- The entries can be read back if places in the inverted file are words of 64 bits. -/
theorem storable (small : inverted.size < UInt64.size) : ∀ e ∈ entries, e.Storable layout := by
  intro e member
  obtain ⟨place, list, pointer, codes, -⟩ := h.lists e member
  obtain ⟨k, hk, rfl⟩ := List.mem_iff_getElem.mp member
  have follows := h.follows hk
  obtain ⟨id, -, termId, -, -⟩ := follows.placed
  have ⟨inside, bit⟩ := codes.place_le
  exact ⟨follows.length_le, follows.fields, id, place, termId, pointer,
    Nat.lt_of_le_of_lt inside small, bit⟩

/-- The lexicon is read as its layout and its entries. -/
theorem items_eq (small : inverted.size < UInt64.size) :
    ∃ reader, LexiconReader.start (.ofList lexicon.toList) = .ok reader ∧
      reader.layout = layout ∧ reader.items = entries.map .ok := by
  have numbers : (accepted layout entries).length ≤ UInt32.size := length_accepted_le entries
  rw [h.ordered] at numbers
  have short : entries.length < UInt64.size := Nat.lt_of_le_of_lt numbers (by decide)
  rw [h.lexicon_eq]
  exact LexiconReader.items_eq (h.storable small) short

/-- Every entry leads to its list. -/
theorem leads {k : Nat} (hk : k < entries.length) :
    ∃ place list, entries[k].Leads layout inverted k place list := by
  obtain ⟨place, list, pointer, codes, length⟩ := h.lists _ (List.getElem_mem hk)
  obtain ⟨id, -, termId, number, -⟩ := (h.follows hk).placed
  have read := codes.readPostings_eq_ok
  rw [length] at read
  refine ⟨place, list, ⟨id, termId, ?_⟩, pointer, read, length,
    isAscending_iff_pairwise.mp codes.ascending, fun p member => ?_⟩
  · rw [number, List.length_take_of_le (Nat.le_of_lt hk)]
  · have nonzero := (Layout.check_eq_ok_iff.mp (codes.fits p member)).frequency_ne
    exact Nat.one_le_iff_ne_zero.mpr fun zero => nonzero (UInt32.toNat_inj.mp zero)

end Indexes

/-- Finishing a merge and its lexicon leaves the index of the entries that were recorded, which are
those that the merge counted. -/
theorem Merge.Records.indexes {C W X : Type} [RunCursor C] [ByteSink W] [FaithfulSink W]
    [ByteSink X] [FaithfulSink X] {m m' : Merge C (PostingWriter W)}
    {lexicon lexicon' : LexiconWriter X} {progress : Progress} {count : Nat}
    (h : Records (PostingWriter.retention W layout) layout m lexicon entries)
    (finished : Merge.finish m = (.ok progress, m'))
    (concluded : lexicon.finish = (.ok count, lexicon')) :
    Indexes layout (content m'.sink.bits.sink).toArray (content lexicon'.sink).toArray entries ∧
      progress = .ofEntries entries := by
  cases fault : m.held.findSome? Lease.closeFault? with
  | some e =>
    have fails := (finish_of_fault fault).1
    rw [finished] at fails
    cases fails
  | none =>
    obtain ⟨result, sink⟩ := finish_of_sound fault
    rw [finished] at result sink
    rcases closing : PostingSink.close m.sink with ⟨e | _, closed⟩ <;> rw [closing] at result sink
    · cases result
    · cases result
      obtain ⟨after, finished, bytes⟩ := LexiconWriter.finish_eq_ok h.holds
      cases finished.symm.trans concluded
      refine ⟨⟨bytes, h.ordered, fun e member => ?_⟩, h.progress_eq⟩
      obtain ⟨place, list, pointer, retained, length⟩ := h.lists e member
      have sink : m'.sink = closed := sink
      rw [sink]
      exact ⟨place, list, pointer, PostingWriter.codes_of_close h.works.1 closing retained, length⟩

namespace Command.MergeRequest

/-- Running a merge succeeds if all files are opened, all terms are written, and both outputs are
finished. -/
theorem run_eq_ok_iff {files : RunFiles} {o : MergeOptions} {sink : PostingWriter OutputFile}
    {lexicon lexicon' : LexiconWriter OutputFile} {progress : Progress} {m' : FileMerge} :
    run files o sink lexicon = (.ok progress, m', lexicon') ↔
      ∃ after m terms m₁ unfinished count,
        Merge.start files.paths.size files sink o.progressInterval = (.ok (), after, m) ∧
        m.rest lexicon #[] = (.ok (), terms, m₁, unfinished) ∧
        Merge.finish m₁ = (.ok progress, m') ∧ unfinished.finish = (.ok count, lexicon') := by
  constructor
  · intro done
    unfold run at done
    rcases started : Merge.start files.paths.size files sink o.progressInterval with
      ⟨e | _, after, m⟩ <;> rw [started] at done <;> dsimp only at done
    · cases done
    rcases rested : m.rest lexicon #[] with ⟨e | _, terms, m₁, unfinished⟩ <;>
      rw [rested] at done <;> dsimp only at done
    · cases done
    rcases finished : Merge.finish m₁ with ⟨e | progress₁, m₂⟩ <;> rw [finished] at done <;>
      dsimp only at done
    · cases done
    rcases concluded : unfinished.finish with ⟨e | count, lexicon₁⟩ <;> rw [concluded] at done <;>
      cases done
    exact ⟨after, m, terms, m₁, unfinished, count, rfl, rested, finished, concluded⟩
  · rintro ⟨after, m, terms, m₁, unfinished, count, started, rested, finished, concluded⟩
    unfold run
    rw [started]
    dsimp only
    rw [rested]
    dsimp only
    rw [finished]
    dsimp only
    rw [concluded]

end Command.MergeRequest

open Command.MergeRequest (FileMerge run run_eq_ok_iff)

/-- A merge into new files that succeeds leaves an index, and its progress counts the entries and
their postings. -/
theorem indexes_of_run {files : RunFiles} {o : MergeOptions} {capacity capacity' : Nat}
    {progress : Progress} {m : FileMerge} {lexicon : LexiconWriter OutputFile}
    (done : run files o (.start capacity .empty layout) (.start capacity' .empty layout) =
      (.ok progress, m, lexicon)) :
    ∃ entries, Indexes layout m.sink.bits.sink.bytes lexicon.sink.bytes entries ∧
      progress = .ofEntries entries := by
  have works : (PostingWriter.retention OutputFile layout).Works _ :=
    PostingWriter.works_start capacity fresh_file
  have holds : LexiconWriter.Holds layout _ [] := LexiconWriter.holds_start capacity' fresh_file
  have begun := Merge.records_start (C := StoredCursor) works holds files.paths.size files
    o.progressInterval
  obtain ⟨after, m₁, terms, m₂, unfinished, count, started, rested, finished, concluded⟩ :=
    run_eq_ok_iff.mp done
  rw [started] at begun
  obtain ⟨entries, records⟩ := begun.rest rested
  exact ⟨entries, records.indexes finished concluded⟩

end IndexMerge
