import IndexMerge.Proofs.InvertedFile.Retention
import IndexMerge.Proofs.Lexicon.Accepted
import IndexMerge.Proofs.Merge.Calls
import IndexMerge.Proofs.Merge.Step
import IndexMerge.Proofs.Merge.Tally
import IndexMerge.Proofs.Posting.Given

/-!
# The lists of a merge stay

Whatever cursors are merged, a list that was stored for a group has as many postings as its cursors
announce, in the order of their documents, and stays in the sink (`yields_of_store`). So at any time
before a failure the lexicon holds the entries that were counted, each with the place of a list that
it describes (`Records.step`).
-/

namespace IndexMerge.Merge

open PostingSource

variable {C S : Type} [RunCursor C] [PostingSink S] {retention : Retention S} {sink : S}
  {leases : List (Lease C)}

/-- Storing a list, whether or not it succeeds, leaves the sink working and keeps its lists. -/
theorem retains_store (works : retention.Works sink) (term : Term) (leases : List (Lease C)) :
    retention.Works (store term leases sink).2.2 ∧
      ∀ place list, retention.Retains sink place list →
        retention.Retains (store term leases sink).2.2 place list := by
  let source : CountedPostings (PostingSequence (Lease C)) :=
    ⟨.ofList (leases.map Lease.openPostings), 0⟩
  have still := retention.works source works
  have kept := fun place list => @Retention.retains S _ retention _ _ source sink place list works
  unfold store
  dsimp only
  split <;> rename_i written <;> rw [written] at still kept
  · exact ⟨still, kept⟩
  · split <;> exact ⟨still, kept⟩

/-- A list that was stored is what the cursors yielded, as many postings as they announced. -/
theorem yields_of_store (works : retention.Works sink) {term : Term} {pointer : BitPosition}
    (stored : (store term leases sink).1 = .ok pointer) :
    ∃ list after, Yields (⟨.ofList (leases.map Lease.openPostings), 0⟩ :
        CountedPostings (PostingSequence (Lease C))) list after ∧
      retention.Retains (store term leases sink).2.2 pointer list ∧
      list.length = announced leases ∧ isAscending (list.map Posting.docId) = true := by
  unfold store at stored ⊢
  dsimp only at stored ⊢
  split at stored
  · cases stored
  · rename_i place source sink' written
    by_cases counted : source.count = announced leases
    · rw [if_pos counted] at stored
      cases stored
      obtain ⟨list, yields, ascending, retained⟩ := retention.write works written
      have count := CountedPostings.count_of_yields yields
      rw [if_pos counted]
      refine ⟨list, source, yields, retained, ?_, ascending⟩
      rw [← counted, count, Nat.zero_add]
    · rw [if_neg counted] at stored
      cases stored

section Records

variable {W : Type} [ByteSink W] [FaithfulSink W] {layout : Layout} {m m' : Merge C S}
  {lexicon lexicon' : LexiconWriter W} {entries : List LexiconEntry}

/-- The lexicon holds the entries that the merge has counted, each of which may come behind those
before it, and the sink has a list for each, as long as the entry says. -/
structure Records (retention : Retention S) (layout : Layout) (m : Merge C S)
    (lexicon : LexiconWriter W) (entries : List LexiconEntry) : Prop where
  works : retention.Works m.sink
  holds : lexicon.Holds layout entries
  ordered : accepted layout entries = entries
  progress_eq : m.progress = .ofEntries entries
  lists : ∀ e ∈ entries, ∃ place list, e.statistics.pointer = some place ∧
    retention.Retains m.sink place list ∧ list.length = e.statistics.documentFrequency.toNat

/-- A merge that was just started has recorded nothing. -/
theorem records_start {F : Type} [RunOpener F C] (works : retention.Works sink)
    (holds : lexicon.Holds layout []) (count : Nat) (opener : F) (interval : Nat) :
    Records retention layout (start (C := C) count opener sink interval).2.2 lexicon [] := by
  have same : (start (C := C) count opener sink interval).2.2.sink = sink := by
    unfold start
    split <;> rfl
  rw [← same] at works
  exact ⟨works, holds, rfl, progress_start count opener sink interval, by simp⟩

/-- A step that succeeds adds an entry. -/
theorem Records.step (h : Records retention layout m lexicon entries) {merged : MergedTerm}
    (stepped : m.step lexicon = (.ok merged, m', lexicon')) :
    ∃ e, Records retention layout m' lexicon' (entries ++ [e]) := by
  obtain ⟨first, rest, -, -, writes, -, added⟩ := step_eq_ok stepped
  generalize first :: rest = leases at writes
  generalize merged.entry = e at writes added
  obtain ⟨follows, holds⟩ := h.holds.of_add added
  obtain ⟨place, stored, pointer⟩ := writes.stored
  obtain ⟨works, kept⟩ := retains_store h.works e.term leases
  obtain ⟨list, -, -, retained, length, -⟩ := yields_of_store h.works stored
  rw [← writes.sink_eq] at works kept retained
  refine ⟨e, works, holds, ?_, ?_, fun other member => ?_⟩
  · rw [accepted_concat, h.ordered, if_pos follows]
  · rw [writes.progress_eq, h.progress_eq, Progress.ofEntries_concat]
    rfl
  · rcases List.mem_append.mp member with before | last
    · obtain ⟨place, list, pointer, retained, length⟩ := h.lists other before
      exact ⟨place, list, pointer, kept place list retained, length⟩
    · obtain rfl := List.mem_singleton.mp last
      exact ⟨place, list, pointer, retained, length.trans writes.documentFrequency.symm⟩

/-- A merge that comes to its end has recorded all that it counted. -/
theorem Records.rest (h : Records retention layout m lexicon entries)
    {terms terms' : Array MergedTerm}
    (done : m.rest lexicon terms = (.ok (), terms', m', lexicon')) :
    ∃ entries, Records retention layout m' lexicon' entries := by
  refine rest_keeps_of_ok
    (P := fun m lexicon => ∃ entries, Records retention layout m lexicon entries)
    ?_ ⟨entries, h⟩ done
  rintro m lexicon merged m' lexicon' ⟨entries, records⟩ stepped
  obtain ⟨e, more⟩ := records.step stepped
  exact ⟨entries ++ [e], more⟩

end Records

end IndexMerge.Merge
