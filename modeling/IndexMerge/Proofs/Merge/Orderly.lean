import IndexMerge.Lexicon.Writer
import IndexMerge.Proofs.Merge.Each
import IndexMerge.Proofs.Merge.Files
import IndexMerge.Proofs.Merge.Unchecked

/-!
# Merges of files whose ranges are verified

Nothing is assumed of the files that are merged, but their ranges of documents are verified when
they are opened. The runs of a group then lie one before another, so a cursor reports whatever is
out of order before it reaches the sink, and the sink never refuses an order of documents
(`orderly_of_verified_files`).
-/

namespace IndexMerge

variable {S D : Type} {headers : List RunHeader}

namespace Merge

variable [PostingSink S] [Dictionary D]

section Listed

/-- Cursors stay over the runs over which they were opened. -/
theorem lasting_listed (headers : List RunHeader) :
    Lasting StoredCursor fun cursor => cursor.header ∈ headers where
  advance := by
    intro cursor cursor' listed advanced
    obtain ⟨header, -⟩ := StoredCursor.advance_eq_ok advanced
    exact header ▸ listed
  openPostings listed := listed
  nextPosting := by
    intro cursor listed
    have header : cursor.nextPosting.2.header = cursor.header :=
      congrArg Prod.fst (StoredCursor.standing_nextPosting cursor)
    show cursor.nextPosting.2.header ∈ headers
    exact header ▸ listed

theorem listed_perform (calls : List Call) (m : Merge StoredCursor S) (d : D)
    (h : Schedule.Listed headers m.schedule.heap) :
    Schedule.Listed headers (perform calls m d).1.schedule.heap :=
  each_perform (lasting_listed headers) calls m d h

omit [Dictionary D] [PostingSink S] in
/-- The cursors of a merge of files whose ranges are verified are over runs that lie one before
another. -/
theorem apart_start (store : FileStore) (paths : Array String) (count : Nat) (sink : S)
    (interval : Nat) : ∃ headers : List RunHeader, headers.Pairwise RunHeader.Before ∧
      Schedule.Listed headers
        (start count (RunFiles.start store paths true) sink interval).2.2.schedule.heap := by
  obtain ⟨headers, apart, listed⟩ := Schedule.apart_start store paths count
  refine ⟨headers, apart, ?_⟩
  apply each_start (K := fun (cursor : StoredCursor) => cursor.header ∈ headers)
  exact listed

end Listed

/-- The order of documents is kept by the cursors. A step is not refused because of it by the sink.
Where the sink would refuse the documents that are stored, if cursors did not look at them, a
scheduled cursor reports a document, which is outside the range of its header or not behind the one
before it. If there is such a document among those that are stored for the entry of a scheduled
cursor, the cursor gives the postings before the first one and reports it. -/
structure Orderly (m : Merge StoredCursor S) (d : D) : Prop where
  accepted : ¬RefusesOrder (m.step d).1
  reported : RefusesOrder (m.unchecked.step d).1 → ∃ lease ∈ m.schedule.heap.toList, ∃ e,
    (m.step d).1 = .error e ∧ lease.cursor.header.Reports e
  faults : ∀ lease ∈ m.schedule.heap.toList, ∀ front p,
    PostingSource.replies (front.length + 1) lease.openPostings.unchecked =
      (front ++ [p]).map (fun p => .ok (some p)) →
    lease.cursor.header.Refuses (front.map Posting.docId).getLast? p.docId →
    ∃ given, given <+: front ∧ ∃ e, PostingSource.replies (given.length + 1) lease.openPostings =
      given.map (fun p => .ok (some p)) ++ [.error e] ∧ lease.cursor.header.Reports e

theorem orderly_of_listed (drains : Drains S)
    (accepts : ∀ e (d : D), ¬RefusesOrder (Dictionary.add e d).1)
    (apart : headers.Pairwise RunHeader.Before) {m : Merge StoredCursor S}
    (listed : Schedule.Listed headers m.schedule.heap) (d : D) : m.Orderly d := by
  rcases step_unchecked drains accepts apart listed d with reported | ⟨accepted, unchecked⟩
  · refine ⟨?_, fun _ => reported, fun _ _ _ _ => Lease.reports_of_stored⟩
    obtain ⟨lease, -, e, failed, reports⟩ := reported
    rw [failed]
    exact not_refusesOrder_error reports.ne_writtenOrder
  · exact ⟨accepted, fun refused => (unchecked refused).elim,
      fun _ _ _ _ => Lease.reports_of_stored⟩

theorem orderly_perform (drains : Drains S)
    (accepts : ∀ e (d : D), ¬RefusesOrder (Dictionary.add e d).1) (store : FileStore)
    (paths : Array String) (count : Nat) (sink : S) (interval : Nat) (calls : List Call) (d : D) :
    let (m, d) := perform calls
      (start count (RunFiles.start store paths true) sink interval).2.2 d
    m.Orderly d := by
  obtain ⟨headers, apart, listed⟩ := apart_start store paths count sink interval
  exact orderly_of_listed drains accepts apart (listed_perform calls _ d listed) _

end Merge

/-- A list of entries refuses no order of documents. -/
theorem accepts_array (e : LexiconEntry) (entries : Array LexiconEntry) :
    ¬RefusesOrder (Dictionary.add e entries).1 :=
  not_refusesOrder_ok ()

/-- A lexicon refuses terms that are out of order, but no documents. -/
theorem LexiconWriter.accepts {X : Type} [ByteSink X] (e : LexiconEntry) (w : LexiconWriter X) :
    ¬RefusesOrder (Dictionary.add e w).1 := by
  show ¬RefusesOrder (add e w).1
  unfold add
  split
  · rename_i checked
    unfold check at checked
    repeat' split at checked
    all_goals cases checked
    all_goals exact not_refusesOrder_error nofun
  · dsimp only
    split
    · unfold flush
      split
      · exact not_refusesOrder_ok _
      · exact not_refusesOrder_error nofun
    · exact not_refusesOrder_ok _

/-- Whatever the files hold that are merged, if their ranges of documents were verified and all
could be opened, no step is refused because of the order of documents, whichever calls were made and
whether lists are kept in memory or written. Wherever the sink would refuse the documents as they
are stored, a cursor reports one of them. The dictionary is any that refuses no order of documents
by itself. -/
theorem orderly_of_verified_files {W D : Type} [ByteSink W] [Dictionary D]
    (accepts : ∀ e (d : D), ¬RefusesOrder (Dictionary.add e d).1) (store : FileStore)
    (paths : Array String) (count interval : Nat) (calls : List Merge.Call) (dictionary : D) :
    (∀ (sink : ListSink) files m,
      Merge.start count (RunFiles.start store paths true) sink interval = (.ok (), files, m) →
      let (m, dictionary) := Merge.perform calls m dictionary
      m.Orderly dictionary) ∧
    ∀ (sink : PostingWriter W) files m,
      Merge.start count (RunFiles.start store paths true) sink interval = (.ok (), files, m) →
      let (m, dictionary) := Merge.perform calls m dictionary
      m.Orderly dictionary := by
  refine ⟨fun sink files m started => ?_, fun sink files m started => ?_⟩
  · have orderly := Merge.orderly_perform ListSink.drains accepts store paths count sink interval
      calls dictionary
    rwa [started] at orderly
  · have orderly := Merge.orderly_perform PostingWriter.drains accepts store paths count sink
      interval calls dictionary
    rwa [started] at orderly

/-- The files of two runs, of which the second has a document out of order. -/
def disorderedFiles : FileStore :=
  let layout : Layout := ⟨0, false⟩
  let run (index : Nat) (docs : List UInt32) : Run :=
    let postings := docs.map fun doc => ⟨doc, 1, [], []⟩
    ⟨index, layout, #[⟨[97], .ofPostings layout postings, postings⟩]⟩
  twoFiles (storedRun (run 0 [1, 2])) (storedRun (run 1 [7, 9, 8, 10]))

/-- A merge of the two files that was started. -/
def disorderedMerge [PostingSink S] (sink : S) :
    Except Error Unit × RunFiles × Merge StoredCursor S :=
  Merge.start 2 (RunFiles.start disorderedFiles #["a", "b"] true) sink 0

/-- The files are opened, and a cursor reports the document that a sink would refuse. -/
theorem orderly_of_verified_files_disordered :
    (let (result, _, m) := disorderedMerge ListSink.empty
     result = .ok () ∧ RefusesOrder (m.unchecked.step (#[] : Array LexiconEntry)).1 ∧
      ∃ lease ∈ m.schedule.heap.toList, ∃ e, (m.step (#[] : Array LexiconEntry)).1 = .error e ∧
        lease.cursor.header.Reports e) ∧
    (let (result, _, m) := disorderedMerge (PostingWriter.start 1 (#[] : Array UInt8) ⟨0, false⟩)
     result = .ok () ∧ m.Orderly (LexiconWriter.start 1 (#[] : Array UInt8) ⟨0, false⟩)) := by
  have opened : (disorderedMerge ListSink.empty).1 = .ok () := by decide +kernel
  have opened' : (disorderedMerge (PostingWriter.start 1 (#[] : Array UInt8) ⟨0, false⟩)).1 =
      .ok () := by decide +kernel
  have refused : RefusesOrder
      ((disorderedMerge ListSink.empty).2.2.unchecked.step (#[] : Array LexiconEntry)).1 :=
    ⟨8, 9, by decide +kernel⟩
  have orderly := (@orderly_of_verified_files (Array UInt8) _ _ _ accepts_array disorderedFiles
    #["a", "b"] 2 0 [] #[]).1 ListSink.empty _ _ (Prod.ext opened rfl)
  have orderly' := (orderly_of_verified_files LexiconWriter.accepts disorderedFiles #["a", "b"] 2 0
    [] (LexiconWriter.start 1 (#[] : Array UInt8) ⟨0, false⟩)).2 _ _ _ (Prod.ext opened' rfl)
  exact ⟨⟨opened, refused, orderly.reported refused⟩, opened', orderly'⟩

end IndexMerge
