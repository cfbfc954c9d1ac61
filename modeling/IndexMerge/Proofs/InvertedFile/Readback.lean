import IndexMerge.Proofs.InvertedFile.Retention
import Mathlib.Data.List.Forall2

/-!
# Reading back what was written

Lists are written one after another, and any of them may fail. A list that could be written is read
back from its place when the writer is closed, whatever failed before it and behind it
(`readback_of_writeAll`). A list that a source yields is written unless its documents do not ascend
or a posting does not fit (`write_eq_ok_iff`).
-/

namespace IndexMerge

open PostingSource

/-- A source of any kind. -/
structure AnySource where
  {kind : Type}
  [isSource : PostingSource kind]
  source : kind

attribute [instance] AnySource.isSource

/-- A source that gives the members of a list. -/
def AnySource.ofList (postings : List Posting) : AnySource := ⟨postings⟩

/-- Writes the lists of sources one after another, whichever fail. -/
def writeAll {S : Type} [PostingSink S] : List AnySource → S → List (Except Error BitPosition) × S
  | [], s => ([], s)
  | next :: sources, s =>
    let (result, _, s) := PostingSink.write next.source s
    let (results, s) := writeAll sources s
    (result :: results, s)

namespace Retention

variable {S : Type} [PostingSink S] {retention : Retention S} {s : S}

/-- Writing any lists leaves a sink working and keeps its lists. -/
theorem retains_writeAll (works : retention.Works s) (sources : List AnySource) :
    retention.Works (writeAll sources s).2 ∧ ∀ place list, retention.Retains s place list →
      retention.Retains (writeAll sources s).2 place list := by
  induction sources generalizing s with
  | nil => exact ⟨works, fun _ _ => id⟩
  | cons next sources ih =>
    have ⟨still, kept⟩ := ih (retention.works next.source works)
    exact ⟨still, fun place list here =>
      kept place list (retention.retains next.source works here)⟩

/-- Of lists that are written one after another a sink has those that succeed, at their places. -/
theorem lists_writeAll (works : retention.Works s) (sources : List AnySource) :
    List.Forall₂ (fun next result => ∀ place, result = .ok place →
      ∃ list after, Yields next.source list after ∧
        retention.Retains (writeAll sources s).2 place list) sources (writeAll sources s).1 := by
  induction sources generalizing s with
  | nil => exact .nil
  | cons next sources ih =>
    have works' := retention.works next.source works
    refine .cons (fun place done => ?_) (ih works')
    obtain ⟨list, yields, _, here⟩ := retention.write works (Prod.ext done rfl)
    exact ⟨list, _, yields, (retains_writeAll works' sources).2 place list here⟩

end Retention

namespace PostingWriter

variable {W : Type} [ByteSink W] [FaithfulSink W] {layout : Layout}

/-- A writer over a sink that never fails writes a list just if its documents ascend and its
postings fit. -/
theorem write_eq_ok_iff {σ : Type} [PostingSource σ] {source after : σ} {list : List Posting}
    {w : PostingWriter W} (works : (retention W layout).Works w)
    (yields : Yields source list after) :
    (∃ pointer, (PostingSink.write source w).1 = .ok pointer) ↔
      (list.map Posting.docId).Pairwise (· < ·) ∧ ∀ p ∈ list, layout.check p = .ok () := by
  constructor
  · rintro ⟨pointer, done⟩
    obtain ⟨postings, yields', ascending, codes⟩ := (retention W layout).write works
      (Prod.ext done rfl)
    obtain ⟨rfl, _⟩ := yields.unique yields'
    exact ⟨isAscending_iff_pairwise.mp ascending, codes.fits⟩
  · rintro ⟨ascending, fits⟩
    obtain ⟨⟨isOpen, rfl, coherent⟩, never⟩ := works
    have ascending : isAscendingAfter none (list.map Posting.docId) = true :=
      isAscending_iff_pairwise.mpr ascending
    obtain ⟨bits, emits, _⟩ := emits_code (coherent.ready never) fits ascending
    refine ⟨w.position, ?_⟩
    show (write source w).1 = _
    unfold write
    rw [if_neg (by simp [isOpen]), drain_of_yields yields emits]

/-- Lists are written over a sink that keeps nothing of a delivery that fails, whatever the
capacity, and any of them may fail: because of its source, the order of its documents, a posting
that does not fit, or a delivery. If the writer can then be closed, every list that could be written
is just what its source yielded, and is read back from its place in what was delivered. If the sink
never fails, a next list of a source that does not fail can be written just if its documents ascend
and its postings fit. -/
theorem readback_of_writeAll {sink : W} (atomic : Atomic sink)
    (empty : FaithfulSink.content sink = []) (layout : Layout) (capacity : Nat)
    (sources : List AnySource) :
    let (results, w) := writeAll sources (start capacity sink layout)
    (∀ closed, PostingSink.close w = (.ok (), closed) →
      List.Forall₂ (fun next result => ∀ pointer, result = .ok pointer →
        ∃ list after, Yields next.source list after ∧
          readPostings (FaithfulSink.content closed.bits.sink).toArray pointer list.length layout =
            .ok list) sources results) ∧
    (NeverFails sink → ∀ (next : AnySource) (list : List Posting) (after : next.kind),
      Yields next.source list after →
        ((∃ pointer, (PostingSink.write next.source w).1 = .ok pointer) ↔
          (list.map Posting.docId).Pairwise (· < ·) ∧ ∀ p ∈ list, layout.check p = .ok ())) := by
  have begun : (looseRetention W layout).Works (start capacity sink layout) :=
    loose_start capacity atomic empty
  refine ⟨fun closed done => ?_, fun never next list after yields => ?_⟩
  · have works := (Retention.retains_writeAll begun sources).1
    refine (Retention.lists_writeAll begun sources).imp fun next result has pointer written => ?_
    obtain ⟨list, after, yields, retained⟩ := has pointer written
    exact ⟨list, after, yields, readPostings_of_close works done retained⟩
  · have begun : (retention W layout).Works (start capacity sink layout) := ⟨begun, never⟩
    exact write_eq_ok_iff (Retention.retains_writeAll begun sources).1 yields

/-- A sink of which the second delivery fails. -/
def failingSink : Recorder := .start (· == 1) fun _ => false

/-- Four lists, of which the third does not ascend. -/
def fourLists : List AnySource :=
  [.ofList [⟨1, 1, [], []⟩, ⟨5, 2, [], []⟩], .ofList [⟨7, 3, [], []⟩],
    .ofList [⟨3, 1, [], []⟩, ⟨3, 1, [], []⟩], .ofList [⟨9, 4, [], []⟩]]

/-- The second list fails with a delivery, the third one by its order, and the last one is read back
from the place behind both. -/
theorem readback_of_writeAll_failing :
    let (results, w) := writeAll fourLists (start 1 failingSink ⟨0, false⟩)
    results.map Except.isOk = [true, false, false, true] ∧
      ∃ closed, PostingSink.close w = (.ok (), closed) ∧
        readPostings (FaithfulSink.content closed.bits.sink).toArray ⟨2, 6⟩ 1 ⟨0, false⟩ =
          .ok [⟨9, 4, [], []⟩] := by
  have done : (PostingSink.close (writeAll fourLists (start 1 failingSink ⟨0, false⟩)).2).1 =
      .ok () := by decide +kernel
  have all := (readback_of_writeAll (atomic_recorder failingSink) rfl ⟨0, false⟩ 1 fourLists).1 _
    (Prod.ext done rfl)
  obtain ⟨list, after, yields, read⟩ :=
    (List.forall₂_iff_get.mp all).2 3 (by decide) (by decide +kernel) ⟨2, 6⟩ (by decide +kernel)
  have known : PostingSource.Yields [⟨9, 4, [], []⟩] [⟨9, 4, [], []⟩] ([] : List Posting) :=
    ⟨[], rfl, rfl⟩
  obtain ⟨rfl, _⟩ := known.unique yields
  exact ⟨by decide +kernel, _, Prod.ext done rfl, read⟩

end PostingWriter

end IndexMerge
