import IndexMerge.Proofs.Lexicon.Cut

/-!
# Lexicons that were not finished

Before a lexicon writer is finished, what it delivered is a part of the header and of entries, even
if a delivery left a part of its chunk (`add_unfinished`). Such bytes are never read to an end
(`IsCut.neverEnds`).
-/

namespace IndexMerge

open LexiconFormat

variable {layout : Layout}

namespace LexiconFormat

theorem length_header (layout : Layout) : (header layout).length = 10 := by
  simp [header]

theorem header_inj {other : Layout} (same : header layout = header other) : layout = other := by
  have read := (reads_decodeHeader layout).source [] none
  rw [same, (reads_decodeHeader other).source [] none] at read
  exact (Except.ok.inj (congrArg Prod.fst read)).symm

end LexiconFormat

/-- A reader that takes the header from a part of a lexicon stands before the rest of the part. -/
theorem LexiconReader.start_of_prefix {source : ByteSource} {r : LexiconReader}
    {more body : List UInt8} (started : start source = .ok r)
    (cut : source.bytes ++ more = header layout ++ body) :
    ∃ rest, source.bytes = header layout ++ rest ∧ rest ++ more = body ∧
      r = ⟨⟨rest, source.fault⟩, layout, 0, false⟩ := by
  obtain ⟨rest, begins, same⟩ := start_eq_ok_iff.mp started
  rw [begins, List.append_assoc] at cut
  have ⟨headers, behind⟩ := List.append_inj cut (by rw [length_header, length_header])
  have layouts := header_inj headers
  rw [layouts] at begins same
  exact ⟨rest, begins, behind, same⟩

/-- Whether or not a device fails behind these bytes, they are not read to an end: if the header is
taken at all, a failure is met behind the entries. -/
def LexiconReader.NeverEnds (bytes : List UInt8) : Prop :=
  ∀ fault r, start ⟨bytes, fault⟩ = .ok r → ∃ entries e, r.Breaks entries e

/-- The bytes are a part of a header and entries. -/
def IsCut (layout : Layout) (bytes : List UInt8) : Prop :=
  ∃ entries : List LexiconEntry, (∀ e ∈ entries, e.Shaped layout) ∧
    bytes <+: header layout ++ entries.flatMap LexiconEntry.encode

theorem IsCut.neverEnds {bytes : List UInt8} (h : IsCut layout bytes) :
    LexiconReader.NeverEnds bytes := by
  obtain ⟨entries, shaped, more, cut⟩ := h
  intro fault r started
  obtain ⟨rest, -, behind, rfl⟩ := LexiconReader.start_of_prefix started cut
  exact LexiconReader.exists_breaks_of_prefix shaped ⟨more, behind⟩ 0

section Sink

variable {W : Type} [ByteSink W] [FaithfulSink W]

/-- Whatever is delivered, a next delivery that fails leaves a part of what was there and of its
chunk. -/
def AppendOnly (w : W) : Prop :=
  ∀ chunks chunk e, (ByteSink.write chunk (delivered chunks w)).1 = .error e →
    FaithfulSink.content (ByteSink.write chunk (delivered chunks w)).2 <+:
      FaithfulSink.content (delivered chunks w) ++ chunk.toList

theorem AppendOnly.write {w : W} (h : AppendOnly w) (chunk : Array UInt8) :
    AppendOnly (ByteSink.write chunk w).2 :=
  fun chunks => h (chunk :: chunks)

theorem Atomic.appendOnly {w : W} (h : Atomic w) : AppendOnly w := by
  intro chunks chunk e failed
  rw [h chunks chunk e failed]
  exact List.prefix_append _ _

end Sink

namespace LexiconWriter

variable {W : Type} [ByteSink W] [FaithfulSink W] {w : LexiconWriter W}

/-- The writer takes entries, and has written a header and entries, but no trailer. -/
structure Unfinished (layout : Layout) (w : LexiconWriter W) : Prop where
  isOpen : w.isFinished = false
  fieldCount_eq : w.fieldCount = layout.fieldCount
  appendOnly : AppendOnly w.sink
  written : ∃ entries : List LexiconEntry, (∀ e ∈ entries, e.Shaped layout) ∧
    w.written = header layout ++ entries.flatMap LexiconEntry.encode

theorem unfinished_start {sink : W} (capacity : Nat) (appendOnly : AppendOnly sink)
    (empty : FaithfulSink.content sink = []) : (start capacity sink layout).Unfinished layout :=
  ⟨rfl, rfl, appendOnly, [], by simp, written_start capacity empty⟩

theorem Unfinished.isCut (h : w.Unfinished layout) :
    IsCut layout (FaithfulSink.content w.sink) := by
  obtain ⟨entries, shaped, written⟩ := h.written
  exact ⟨entries, shaped, w.staged.toList, written⟩

theorem Unfinished.stage (h : w.Unfinished layout) {e : LexiconEntry} (shape : e.Shaped layout) :
    (w.stage e).Unfinished layout := by
  obtain ⟨entries, shaped, bytes⟩ := h.written
  refine ⟨h.isOpen, h.fieldCount_eq, h.appendOnly, entries ++ [e], ?_, written_stage_eq bytes e⟩
  simpa [or_imp, forall_and] using ⟨shaped, shape⟩

/-- Delivering what is staged leaves a part of what was written. -/
theorem flush_unfinished (h : w.Unfinished layout) : (flush w).2.Unfinished layout ∨
    (∃ error, (flush w).1 = .error error) ∧
      IsCut layout (FaithfulSink.content (flush w).2.sink) := by
  obtain ⟨entries, shaped, bytes⟩ := h.written
  obtain ⟨sink, wrote, flushed⟩ | ⟨fault, sink, failed, flushed⟩ := flush_cases w <;> rw [flushed]
  · have still := h.appendOnly.write w.staged
    rw [wrote] at still
    refine .inl ⟨h.isOpen, h.fieldCount_eq, still, entries, shaped, ?_⟩
    rw [written_delivered wrote, bytes]
  · have part : FaithfulSink.content (ByteSink.write w.staged w.sink).2 <+: w.written :=
      h.appendOnly [] w.staged fault (congrArg Prod.fst failed)
    rw [failed, bytes] at part
    exact .inr ⟨⟨_, rfl⟩, entries, shaped, part⟩

/-- Adding an entry leaves the writer unfinished, or a delivery fails and what was delivered is
cut. -/
theorem add_unfinished (e : LexiconEntry) (h : w.Unfinished layout) :
    (add e w).2.Unfinished layout ∨
      (∃ error, (add e w).1 = .error error) ∧
        IsCut layout (FaithfulSink.content (add e w).2.sink) := by
  cases checked : w.check e.term e.statistics with
  | error error =>
    unfold add
    rw [checked]
    exact .inl h
  | ok placed =>
    obtain ⟨id, pointer⟩ := placed
    obtain ⟨short, fields, termId, -, place, -⟩ := of_check_eq_ok checked
    have shape : e.Shaped layout :=
      ⟨short, fields.trans (by rw [h.fieldCount_eq]), id, pointer, termId, place⟩
    rw [add_of_check checked]
    split
    · exact flush_unfinished (h.stage shape)
    · exact .inl (h.stage shape)

/-- A part of what a finished writer delivered gives the entries whose bytes are there, up to the
first one with a place outside of a byte, and then a failure. -/
theorem breaks_of_offered {sink : W} (fresh : Fresh sink) (layout : Layout) (capacity : Nat)
    (entries : List LexiconEntry) (narrow : ∀ e ∈ entries, e.Narrow) :
    let taken := accepted layout entries
    ∃ closed, finish (offered entries (start capacity sink layout)) = (.ok taken.length, closed) ∧
      ∀ source, source.bytes <+: FaithfulSink.content closed.sink →
        source.bytes ≠ FaithfulSink.content closed.sink →
        ∀ r, LexiconReader.start source = .ok r →
        ∃ k e, k ≤ taken.length ∧ r.Breaks (taken.take k) e ∧
          ∀ j ≤ taken.length, (header layout ++ (taken.take j).flatMap LexiconEntry.encode <+:
            source.bytes ∧ ∀ e ∈ taken.take j, e.IsPlaced) ↔ j ≤ k := by
  intro taken
  have holds : (offered entries (start capacity sink layout)).Holds layout taken :=
    holds_offered (holds_start capacity fresh) entries
  obtain ⟨closed, finished, content⟩ := finish_eq_ok holds
  have each : ∀ e ∈ taken, e ∈ entries ∧ e.Shaped layout := by
    intro e member
    obtain ⟨front, behind, split⟩ := List.append_of_mem member
    have ⟨offered, follows⟩ := follows_of_accepted split
    obtain ⟨id, pointer, termId, -, place⟩ := follows.placed
    exact ⟨offered, follows.length_le, follows.fields, id, pointer, termId, place⟩
  refine ⟨closed, finished, fun source part proper r started => ?_⟩
  obtain ⟨more, missing, cut⟩ := exists_missing part proper
  rw [content] at cut
  obtain ⟨rest, begins, behind, rfl⟩ := LexiconReader.start_of_prefix started cut
  rw [begins]
  simp only [List.prefix_append_right_inj]
  exact LexiconReader.breaks_of_cut (fun e member => (each e member).2)
    (fun e member => narrow e (each e member).1) behind missing 0

end LexiconWriter

end IndexMerge
