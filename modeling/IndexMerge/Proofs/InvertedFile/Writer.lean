import IndexMerge.InvertedFile.Writer
import IndexMerge.Proofs.Bits.Writer
import IndexMerge.Proofs.InvertedFile.Code
import IndexMerge.Proofs.InvertedFile.View

/-!
# What a posting writer has written

Over a sink that never fails, the lists of a posting writer are written as their codes, one behind
another, and the place of a list counts the bits before it (`PostingWriter.view`). From the bytes
that are delivered when the writer is closed each list is read back (`readPostings_of_closed`).
-/

namespace IndexMerge.PostingWriter

open PostingSource

variable {W : Type} [ByteSink W] [FaithfulSink W] {layout : Layout}

/-- The codes of lists, one behind another. -/
def listsCode (layout : Layout) (lists : List (List Posting)) : List Bool :=
  lists.flatMap (postingsCode layout none)

/-- The code of each list is behind the codes of the lists before it. -/
theorem listsCode_split {lists : List (List Posting)} {k : Nat} (hk : k < lists.length) :
    listsCode layout lists = listsCode layout (lists.take k) ++
      (postingsCode layout none lists[k] ++ listsCode layout (lists.drop (k + 1))) := by
  conv => lhs; rw [← List.take_append_drop k lists, List.drop_eq_getElem_cons hk]
  rw [listsCode, List.flatMap_append, List.flatMap_cons]
  rfl

omit [FaithfulSink W] in
theorem exhausts : Exhausts (PostingWriter W) := by
  intro σ _ source source' w w' pointer written
  have written : write source w = _ := written
  unfold write at written
  split at written
  · cases written
  · split at written <;> cases written
    rename_i drained
    obtain ⟨postings, yields, -⟩ := yields_of_drain drained
    exact ⟨postings, yields⟩

/-- A posting that fits is written as its code. -/
theorem emit_eq_ok {bits : BitWriter W} {p : Posting} (last : Option UInt32)
    (ready : bits.Ready) (fits : layout.check p = .ok ()) :
    ∃ bits', emit layout last p bits = (.ok (), bits') ∧ bits'.Ready ∧
      bits'.written = bits.written ++ p.code layout last := by
  unfold emit
  rw [fits]
  exact BitWriter.writeCode_eq_ok ready _

theorem emits_code {bits : BitWriter W} {last : Option UInt32} {postings : List Posting}
    (ready : bits.Ready) (fits : ∀ p ∈ postings, layout.check p = .ok ())
    (ascending : isAscendingAfter last (postings.map Posting.docId) = true) :
    ∃ bits', Emits (emit layout) last postings bits bits' ∧ bits'.Ready ∧
      bits'.written = bits.written ++ postingsCode layout last postings := by
  induction postings generalizing last bits with
  | nil => exact ⟨bits, rfl, ready, (List.append_nil _).symm⟩
  | cons p postings ih =>
    have ⟨follows, ascending⟩ := isAscendingAfter_cons.mp ascending
    obtain ⟨bits₁, emitted, ready₁, code₁⟩ := emit_eq_ok last ready (fits p (by simp))
    obtain ⟨bits₂, rest, ready₂, code₂⟩ :=
      ih ready₁ (fun q member => fits q (by simp [member])) ascending
    refine ⟨bits₂, ⟨follows, bits₁, emitted, rest⟩, ready₂, ?_⟩
    rw [code₂, code₁, List.append_assoc]
    rfl

/-- A writer holds the lists that it has written, each at the place behind those before it. -/
def view (W : Type) [ByteSink W] [FaithfulSink W] (layout : Layout) :
    SinkView (PostingWriter W) layout where
  Has w lists := w.isClosed = false ∧ w.layout = layout ∧ w.bits.Ready ∧
    w.bits.written = listsCode layout lists
  Closed w lists := ∃ count, bytesBits (FaithfulSink.content w.bits.sink) =
    listsCode layout lists ++ List.replicate count false
  place lists := .ofBits (listsCode layout lists).length
  write := by
    rintro σ _ source source' postings w lists ⟨isOpen, rfl, ready, written⟩ yields fits ascending
    have ascending : isAscendingAfter none (postings.map Posting.docId) = true := ascending
    obtain ⟨bits, emits, ready', written'⟩ := emits_code ready fits ascending
    have drained := drain_of_yields yields emits
    refine ⟨{ w with bits }, ?_, isOpen, rfl, ready', ?_⟩
    · show PostingWriter.write source w = _
      unfold PostingWriter.write
      rw [if_neg (by simp [isOpen]), drained]
      dsimp only
      rw [position, BitWriter.position_eq ready, written]
    · rw [written', written, listsCode, listsCode, List.flatMap_append, List.flatMap_cons,
        List.flatMap_nil, List.append_nil]
  close := by
    rintro w lists ⟨isOpen, rfl, ready, written⟩
    obtain ⟨bits, finished, content⟩ := BitWriter.finish_eq_ok ready
    refine ⟨{ w with bits, isClosed := true }, ?_, BitWriter.padding w.bits.written.length, ?_⟩
    · show PostingWriter.close w = _
      unfold PostingWriter.close
      rw [if_neg (by simp [isOpen]), finished]
    · rw [content, BitWriter.padded, written]

/-- A new writer over a fresh sink holds no lists. -/
theorem has_start {sink : W} (capacity : Nat) (fresh : Fresh sink) :
    (view W layout).Has (start capacity sink layout) [] := by
  have ⟨ready, written⟩ := BitWriter.ready_start capacity fresh
  exact ⟨rfl, rfl, ready, written⟩

/-- Each list of a writer that was closed is read back from its place. -/
theorem readPostings_of_closed {w : PostingWriter W} {lists : List (List Posting)}
    (closed : (view W layout).Closed w lists) {k : Nat} (hk : k < lists.length)
    (fits : ∀ p ∈ lists[k], layout.check p = .ok ())
    (short : ∀ p ∈ lists[k], p.blocks.length < UInt32.size)
    (ascending : isAscending (lists[k].map Posting.docId) = true) :
    readPostings (FaithfulSink.content w.bits.sink).toArray ((view W layout).place (lists.take k))
      lists[k].length layout = .ok lists[k] := by
  obtain ⟨count, content⟩ := closed
  rw [listsCode_split hk, List.append_assoc, List.append_assoc] at content
  exact readPostings_eq_ok (fun p member => Layout.check_eq_ok_iff.mp (fits p member))
    (fun p member => Nat.le_of_lt (short p member)) ascending content

end IndexMerge.PostingWriter
