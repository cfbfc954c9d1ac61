import IndexMerge.Proofs.InvertedFile.Retention

/-!
# Lists without gaps

Over a sink that never fails, lists that are written one after another are all that is written: a
list begins where the one before it ends, at whatever bit (`Tiled.write`), and the bytes that are
delivered in the end hold the codes of the lists and less than a byte of zeros (`Tiled.close`). So
the lists can be read one after another without knowing their places (`readLists`), and each can be
read from its place alone.
-/

namespace IndexMerge

open PostingSource

namespace BitPosition

/-- Places are compared as the numbers of bits before them. -/
theorem compare_ofBits {a b : Nat} (less : a < b) : compare (ofBits a) (ofBits b) = .lt := by
  unfold compare ofBits
  by_cases same : a / 8 = b / 8
  · have bits : a % 8 < b % 8 := by omega
    simp [same, Nat.compare_eq_lt.mpr bits, Std.ReflOrd.compare_self]
  · have bytes : a / 8 < b / 8 := by omega
    simp [Nat.compare_eq_lt.mpr bytes]

end BitPosition

namespace PostingReader

/-- Reads lists one after another, given the number of postings of each. -/
def readLists (layout : Layout) : List Nat → Attempt Error BitReader (List (List Posting))
  | [] => pure []
  | count :: counts => do
    let list ← readOnto layout count none #[]
    let lists ← readLists layout counts
    return list :: lists

/-- The codes of lists are read as the lists. -/
theorem reads_readLists {layout : Layout} {lists : List (List Posting)}
    (fits : ∀ list ∈ lists, ∀ p ∈ list, layout.check p = .ok ())
    (ascending : ∀ list ∈ lists, isAscending (list.map Posting.docId) = true) :
    Attempt.Reads (readLists layout (lists.map List.length)) (PostingWriter.listsCode layout lists)
      lists := by
  induction lists with
  | nil => exact .pure []
  | cons list lists ih =>
    have here : ∀ p ∈ list, p.Fits layout := by
      intro p member
      apply Layout.check_eq_ok_iff.mp
      exact fits list (List.mem_cons_self ..) p member
    have first := @reads_readOnto layout list none #[] here
      (fun p member => (here p member).length_blocks_le) (ascending list (List.mem_cons_self ..))
    have rest := ih (fun other member => fits other (List.mem_cons_of_mem _ member))
      (fun other member => ascending other (List.mem_cons_of_mem _ member))
    rw [List.map_cons, readLists]
    exact first.bind (rest.last (.pure (list :: lists)))

end PostingReader

namespace PostingWriter

variable {W : Type} [ByteSink W] [FaithfulSink W] {layout : Layout} {w w' : PostingWriter W}
  {lists : List (List Posting)}

/-- A list with postings has a code of some bits. -/
theorem length_postingsCode_pos {last : Option UInt32} {postings : List Posting}
    (nonempty : postings ≠ []) : 0 < (postingsCode layout last postings).length := by
  cases postings with
  | nil => exact absurd rfl nonempty
  | cons p postings =>
    have gap : 0 < (gapCode last p.docId).length := by
      unfold gapCode
      split <;> simp [length_gammaCode]
    simp only [postingsCode, Posting.code, List.length_append]
    omega

/-- Behind more lists, if all have postings, there are more bits. -/
theorem length_listsCode_take {i j : Nat} (nonempty : ∀ list ∈ lists, list ≠ []) (less : i < j)
    (inside : j ≤ lists.length) :
    (listsCode layout (lists.take i)).length < (listsCode layout (lists.take j)).length := by
  have hi : i < (lists.take j).length := by
    rw [List.length_take]
    omega
  have member : (lists.take j)[i] ∈ lists := List.mem_of_mem_take (List.getElem_mem hi)
  have some := @length_postingsCode_pos layout none _ (nonempty _ member)
  have split := @listsCode_split layout _ _ hi
  rw [List.take_take, Nat.min_eq_left (Nat.le_of_lt less)] at split
  rw [split, List.length_append, List.length_append]
  omega

/-- The writer takes lists, and has written these over a sink that never fails, and nothing else. -/
structure Tiled (layout : Layout) (w : PostingWriter W) (lists : List (List Posting)) : Prop where
  works : (retention W layout).Works w
  written_eq : w.bits.written = listsCode layout lists
  fits : ∀ list ∈ lists, ∀ p ∈ list, layout.check p = .ok ()
  ascending : ∀ list ∈ lists, isAscending (list.map Posting.docId) = true

theorem tiled_start {sink : W} (capacity : Nat) (fresh : Fresh sink) :
    (start capacity sink layout).Tiled layout [] :=
  ⟨works_start capacity fresh, (BitWriter.ready_start capacity fresh).2, by simp, by simp⟩

/-- The next list begins where the last one ends. -/
theorem Tiled.position_eq (h : w.Tiled layout lists) :
    w.position = .ofBits (listsCode layout lists).length := by
  have ⟨⟨_, _, coherent⟩, _⟩ := h.works
  rw [← h.written_eq]
  exact coherent.position_eq

/-- A list that was written is what its source yielded, and begins where the lists before it end. -/
theorem Tiled.write {σ : Type} [PostingSource σ] {source source' : σ} {place : BitPosition}
    (h : w.Tiled layout lists) (written : PostingSink.write source w = (.ok place, source', w')) :
    ∃ list, Yields source list source' ∧ place = w.position ∧
      w'.Tiled layout (lists ++ [list]) := by
  have works := (retention W layout).works source h.works
  rw [written] at works
  obtain ⟨⟨isOpen, same, coherent⟩, -⟩ := h.works
  have written : PostingWriter.write source w = (.ok place, source', w') := written
  unfold PostingWriter.write at written
  rw [if_neg (by simp [isOpen]), same] at written
  split at written
  · rename_i bits drained
    cases written
    obtain ⟨list, yields, emits⟩ := yields_of_drain drained
    obtain ⟨fits, code⟩ := code_of_emits coherent emits
    refine ⟨list, yields, rfl, works, ?_, ?_, ?_⟩
    · simp [code, h.written_eq, listsCode]
    · intro other member
      rcases List.mem_append.mp member with before | last
      · exact h.fits other before
      · rw [List.mem_singleton.mp last]
        exact fits
    · intro other member
      rcases List.mem_append.mp member with before | last
      · exact h.ascending other before
      · rw [List.mem_singleton.mp last]
        exact emits.ascending
  · cases written

/-- Closing delivers the codes of the lists and fills the last byte with zeros. -/
theorem Tiled.close (h : w.Tiled layout lists) :
    ∃ closed, PostingSink.close w = (.ok (), closed) ∧ ∃ count < 8,
      bytesBits (FaithfulSink.content closed.bits.sink) =
        listsCode layout lists ++ List.replicate count false := by
  have ⟨⟨isOpen, _, coherent⟩, never⟩ := h.works
  obtain ⟨bits, finished, content⟩ := BitWriter.finish_eq_ok (coherent.ready never)
  refine ⟨{ w with bits, isClosed := true }, ?_, BitWriter.padding w.bits.written.length, ?_, ?_⟩
  · show PostingWriter.close w = _
    unfold PostingWriter.close
    rw [if_neg (by simp [isOpen]), finished]
  · unfold BitWriter.padding
    omega
  · rw [content, BitWriter.padded, h.written_eq]

section Reading

variable {data : Array UInt8} {rest : List Bool}

/-- Each list is read from the place where it was written. -/
theorem Tiled.readPostings_eq_ok (h : w.Tiled layout lists)
    (stored : bytesBits data.toList = listsCode layout lists ++ rest) {k : Nat}
    (hk : k < lists.length) :
    readPostings data (.ofBits (listsCode layout (lists.take k)).length) lists[k].length layout =
      .ok lists[k] := by
  have member : lists[k] ∈ lists := List.getElem_mem hk
  have fits : ∀ p ∈ lists[k], p.Fits layout := by
    intro p here
    exact Layout.check_eq_ok_iff.mp (h.fits lists[k] member p here)
  rw [listsCode_split hk, List.append_assoc, List.append_assoc] at stored
  exact IndexMerge.readPostings_eq_ok fits (fun p here => (fits p here).length_blocks_le)
    (h.ascending lists[k] member) stored

/-- The lists are read one after another from the first bit on. -/
theorem Tiled.readLists_eq_ok (h : w.Tiled layout lists)
    (stored : bytesBits data.toList = listsCode layout lists ++ rest) :
    (PostingReader.readLists layout (lists.map List.length) (.start data)).1 = .ok lists := by
  have ahead : BitReader.ahead (.start data) = listsCode layout lists ++ rest := stored
  rw [PostingReader.reads_readLists h.fits h.ascending (.start data) _ ⟨⟨rest, ahead⟩, rfl⟩]

end Reading

end PostingWriter

end IndexMerge
