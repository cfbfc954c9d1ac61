import IndexMerge.Proofs.InvertedFile.Alike
import IndexMerge.Proofs.Merge.Lockstep
import IndexMerge.Proofs.Merge.Refusal

/-!
# Lists in memory and lists in a file

A merge of runs that were built over one layout is compared with the same merge into the other kind
of sink. The sink in memory looks at the order of documents only, and the writer at the layout as
well; but the postings of built runs fit it, and cursors give no others (`MemoryCursor.Fits`). So
every step comes to the same apart from the places of the lists, and in the end each entry has the
same list in both sinks (`sinks_interchangeable`).
-/

namespace IndexMerge

open PostingSource

variable {layout : Layout}

/-- All postings that the cursor can still give fit the layout. -/
structure MemoryCursor.Fits (layout : Layout) (c : MemoryCursor) : Prop where
  current : ∀ e, c.current = some e → ∀ p ∈ e.postings, layout.check p = .ok ()
  ahead : ∀ e ∈ c.ahead, ∀ p ∈ e.postings, layout.check p = .ok ()
  postings : ∀ p ∈ c.postings, layout.check p = .ok ()

theorem MemoryCursor.fits_start {run : Run} {index : Nat} (built : run.Built index layout) :
    (MemoryCursor.start run).Fits layout := by
  refine ⟨?_, fun e member => (built.sound.entries e member).fits, ?_⟩
  · intro e none
    cases none
  · intro p none
    cases none

/-- Cursors over built runs give postings that fit. -/
theorem MemoryCursor.supplies (layout : Layout) :
    Supplies MemoryCursor (fun p => layout.check p = .ok ()) (Fits layout) where
  advance := by
    intro c c' fits advanced
    have advanced : MemoryCursor.advance c = (.ok (), c') := advanced
    unfold MemoryCursor.advance at advanced
    split at advanced
    · cases advanced
    · split at advanced
      · cases advanced
      · rename_i e ahead here
        cases advanced
        refine ⟨?_, fun other member => fits.ahead other (by simp [here, member]), by simp⟩
        intro other same
        cases same
        exact fits.ahead e (by simp [here])
  openPostings := by
    intro c fits
    refine ⟨fits.current, fits.ahead, ?_⟩
    intro p member
    have member : p ∈ (c.current.map (·.postings)).getD [] := member
    cases current : c.current with
    | none =>
      rw [current] at member
      cases member
    | some e =>
      rw [current] at member
      exact fits.current e current p member
  nextPosting := by
    intro c fits
    show (MemoryCursor.nextPosting c).2.Fits layout
    unfold MemoryCursor.nextPosting
    split
    · exact fits
    · rename_i p postings here
      exact ⟨fits.current, fits.ahead, fun q member => fits.postings q (by simp [here, member])⟩
  given := by
    intro c c' p fits given
    have given : MemoryCursor.nextPosting c = (.ok (some p), c') := given
    unfold MemoryCursor.nextPosting at given
    split at given
    · cases given
    · rename_i q postings here
      cases given
      exact fits.postings p (by simp [here])

namespace Merge

variable {W : Type} [ByteSink W] [FaithfulSink W]

/-- Two entries differ in the place of their list only, and the sinks have the same list at these
places, as long as the entries say. -/
def Twofold (has has' : BitPosition → List Posting → Prop) (e e' : LexiconEntry) : Prop :=
  ∃ (unplaced : LexiconEntry) (place place' : BitPosition) (list : List Posting),
    e = unplaced.at place ∧ e' = unplaced.at place' ∧ has place list ∧ has' place' list ∧
      e.statistics.documentFrequency.toNat = list.length

/-- The sinks take lists, and the dictionaries have entries for the lists that both have. -/
structure Paired (layout : Layout) (s : ListSink) (d : Array LexiconEntry) (w : PostingWriter W)
    (d' : Array LexiconEntry) : Prop where
  isOpen : s.isClosed = false
  works : (PostingWriter.retention W layout).Works w
  entries : List.Forall₂ (Twofold (fun place list => s.get? place = some list)
    ((PostingWriter.retention W layout).Retains w)) d.toList d'.toList

/-- Storing in memory and writing go on alike. -/
theorem lockstep_paired (layout : Layout) :
    Lockstep (fun p => layout.check p = .ok ()) (Paired (W := W) layout)
      fun s w place place' list => s.get? place = some list ∧
        (PostingWriter.retention W layout).Retains w place' list where
  source mayGive _ taken _ _ _ _ paired :=
    (ListSink.write_alike mayGive taken paired.isOpen paired.works).2.1
  write := by
    intro σ _ may mayGive source taken s d w d' paired
    obtain ⟨answer, same, isOpen⟩ :=
      ListSink.write_alike mayGive taken paired.isOpen paired.works
    have works := (PostingWriter.retention W layout).works source paired.works
    have kept : ∀ place list, s.get? place = some list →
        (PostingSink.write source s).2.2.get? place = some list :=
      fun _ _ here => ListSink.get?_write source here
    have kept' : ∀ place list, (PostingWriter.retention W layout).Retains w place list →
        (PostingWriter.retention W layout).Retains (PostingSink.write source w).2.2 place list :=
      fun _ _ here => (PostingWriter.retention W layout).retains source paired.works here
    refine ⟨⟨isOpen, works, ?_⟩, ?_⟩
    · apply paired.entries.imp
      rintro e e' ⟨unplaced, place, place', list, rfl, rfl, here, here', length⟩
      exact ⟨unplaced, place, place', list, rfl, rfl, kept place list here,
        kept' place' list here', length⟩
    · rcases stored : PostingSink.write source s with ⟨e | place, after, s₁⟩ <;>
        rcases written : PostingSink.write source w with ⟨e' | place', after', w₁⟩ <;>
        rw [stored, written] at answer same <;> cases answer
      · exact .failed e
      · obtain ⟨list, yields, -, here⟩ := ListSink.retention.write trivial stored
        obtain ⟨list', yields', -, here'⟩ :=
          (PostingWriter.retention W layout).write paired.works written
        obtain ⟨rfl, -⟩ := yields.unique yields'
        exact .ok ⟨list, yields, here, here'⟩
  add := by
    rintro s d w d' place place' list e paired ⟨here, here'⟩ length
    refine ⟨rfl, paired.isOpen, paired.works, ?_⟩
    show List.Forall₂ _ (d.push (e.at place)).toList (d'.push (e.at place')).toList
    rw [Array.toList_push, Array.toList_push]
    exact List.rel_append paired.entries
      (.cons ⟨e, place, place', list, rfl, rfl, here, here', length⟩ .nil)

variable {runs : Array Run}

/-- Cursors over built runs are scheduled with postings that fit. -/
theorem each_fits (built : ∀ run ∈ runs, ∃ index, run.Built index layout) (count : Nat) :
    Schedule.Each (fun lease => MemoryCursor.Fits layout lease.cursor)
      (Schedule.start count runs).2.2.heap := by
  apply Schedule.each_start
  intro position cursor opened _ next advanced
  rw [openerBefore_memory] at opened
  have opened : (openInMemory position runs).1 = .ok cursor := opened
  unfold openInMemory at opened
  split at opened
  · rename_i run found
    cases opened
    obtain ⟨index, built⟩ := built run (Array.mem_of_getElem? found)
    exact (MemoryCursor.supplies layout).advance (MemoryCursor.fits_start built) advanced
  · cases opened

/-- Runs that were built over one layout are merged alike into a sink in memory and into a writer of
that layout whose sink never fails: starting and every step behind any calls come to the same, with
the same progress, apart from the places of the lists, and when both sinks are closed each entry has
the same list in both, which is read back from the writer's bytes. -/
theorem sinks_interchangeable (built : ∀ run ∈ runs, ∃ index, run.Built index layout) {sink : W}
    (fresh : Fresh sink) (capacity interval : Nat) (calls : List Call) :
    let listed := start runs.size runs ListSink.empty interval
    let coded := start runs.size runs (PostingWriter.start capacity sink layout) interval
    let (m, d) := perform calls listed.2.2 (#[] : Array LexiconEntry)
    let (m', d') := perform calls coded.2.2 (#[] : Array LexiconEntry)
    listed.1 = coded.1 ∧
      Agree (fun t t' => t.unplaced = t'.unplaced) (m.step d).1 (m'.step d').1 ∧
      m.progress = m'.progress ∧ m.isDone = m'.isDone ∧
      ∃ stored written, ListSink.close m.sink = (.ok (), stored) ∧
        PostingWriter.close m'.sink = (.ok (), written) ∧
        List.Forall₂ (fun e e' => e.term = e'.term ∧
          e.statistics.detached = e'.statistics.detached ∧
          e.statistics.termId = e'.statistics.termId ∧
          ∃ place place' list, e.statistics.pointer = some place ∧
            e'.statistics.pointer = some place' ∧ stored.get? place = some list ∧
            readPostings (FaithfulSink.content written.bits.sink).toArray place'
              e'.statistics.documentFrequency.toNat layout = .ok list) d.toList d'.toList := by
  have paired : Paired layout ListSink.empty #[] (PostingWriter.start capacity sink layout) #[] :=
    ⟨rfl, PostingWriter.works_start capacity fresh, .nil⟩
  have opened : (Schedule.start (C := MemoryCursor) runs.size runs).1 =
      (Schedule.start runs.size runs).1 := rfl
  obtain ⟨started, inStep⟩ := inStep_start opened rfl paired interval interval
  have supplies := MemoryCursor.supplies layout
  have kind := each_start (each_fits built runs.size) ListSink.empty interval
  have after := inStep.perform (lockstep_paired layout) supplies kind calls
  have agree := (after.step (lockstep_paired layout) supplies
    (each_perform supplies.toLasting calls _ _ kind)).1
  dsimp only at after agree ⊢
  refine ⟨started, agree, after.progress, after.isDone_eq, ?_⟩
  obtain ⟨written, closed, readback⟩ := PostingWriter.readPostings_of_retains after.related.works
  refine ⟨_, written, rfl, closed, after.related.entries.imp ?_⟩
  rintro e e' ⟨unplaced, place, place', list, rfl, rfl, here, here', length⟩
  refine ⟨rfl, rfl, rfl, place, place', list, rfl, rfl, here, ?_⟩
  have frequency : (unplaced.at place').statistics.documentFrequency.toNat = list.length := length
  rw [frequency]
  exact readback place' list here'

/-- The two runs share a document of their second term. In memory storing it fails, so it fails in
the same way when it is written, and their first term was counted and entered before. -/
theorem sinks_interchangeable_clashing :
    let (m, d) := perform [.step] (start 2 clashingRuns ListSink.empty 0).2.2
      (#[] : Array LexiconEntry)
    let (m', d') := perform [.step] (start 2 clashingRuns
      (PostingWriter.start 1 (#[] : Array UInt8) ⟨0, false⟩) 0).2.2 (#[] : Array LexiconEntry)
    (m.step d).1 = .error (.violation (.writtenOrder 7 7)) ∧ d.size = 1 ∧
      (m'.step d').1 = .error (.violation (.writtenOrder 7 7)) ∧ d'.size = 1 ∧
      m'.progress = ⟨1, 2⟩ := by
  have built : ∀ run ∈ clashingRuns, ∃ index, run.Built index ⟨0, false⟩ := by
    intro run member
    obtain ⟨i, inside, rfl⟩ := Array.getElem_of_mem member
    exact ⟨i, built_clashingRuns i inside⟩
  obtain ⟨-, agree, progress, -, _, _, -, -, entries⟩ :=
    sinks_interchangeable built fresh_array 1 0 [.step]
  have failed : ((perform [.step] (start 2 clashingRuns ListSink.empty 0).2.2
      (#[] : Array LexiconEntry)).1.step (perform [.step] (start 2 clashingRuns ListSink.empty
        0).2.2 (#[] : Array LexiconEntry)).2).1 = .error (.violation (.writtenOrder 7 7)) := by
    decide +kernel
  have size : (perform [.step] (start 2 clashingRuns ListSink.empty 0).2.2
      (#[] : Array LexiconEntry)).2.size = 1 := by
    decide +kernel
  have counted : (perform [.step] (start 2 clashingRuns ListSink.empty 0).2.2
      (#[] : Array LexiconEntry)).1.progress = ⟨1, 2⟩ := by
    decide +kernel
  have length := entries.length_eq
  rw [Array.length_toList, Array.length_toList] at length
  exact ⟨failed, size, agree.eq_error failed, length.symm.trans size, progress.symm.trans counted⟩

end Merge

end IndexMerge
