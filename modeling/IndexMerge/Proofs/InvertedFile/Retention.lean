import IndexMerge.InvertedFile.InMemory
import IndexMerge.Proofs.InvertedFile.Writer

/-!
# Lists that stay

A sink retains a list if the list can be found at its place from then on, whatever is written
behind it, and whether or not that succeeds (`Retention`). Nothing is asked of the sources: a sink
that says where a list begins has drained the source into postings with ascending documents.
-/

namespace IndexMerge

open PostingSource

/-- How the lists that a sink took can be told from the sink from then on. -/
structure Retention (S : Type) [PostingSink S] where
  /-- Nothing but a source keeps the sink from taking lists. -/
  Works : S → Prop
  /-- The sink has a list at a place. -/
  Retains : S → BitPosition → List Posting → Prop
  works : ∀ {σ : Type} [PostingSource σ] (source : σ) {s : S}, Works s →
    Works (PostingSink.write source s).2.2
  retains : ∀ {σ : Type} [PostingSource σ] (source : σ) {s : S} {place : BitPosition}
    {list : List Posting}, Works s → Retains s place list →
    Retains (PostingSink.write source s).2.2 place list
  write : ∀ {σ : Type} [PostingSource σ] {source source' : σ} {s s' : S} {place : BitPosition},
    Works s → PostingSink.write source s = (.ok place, source', s') →
    ∃ postings, Yields source postings source' ∧
      isAscending (postings.map Posting.docId) = true ∧ Retains s' place postings

/-- More may be known of a sink that takes lists, if writing keeps it. -/
def Retention.restrict {S : Type} [PostingSink S] (retention : Retention S) (P : S → Prop)
    (keeps : ∀ {σ : Type} [PostingSource σ] (source : σ) {s : S}, retention.Works s → P s →
      P (PostingSink.write source s).2.2) : Retention S where
  Works s := retention.Works s ∧ P s
  Retains := retention.Retains
  works source _ works := ⟨retention.works source works.1, keeps source works.1 works.2⟩
  retains source _ _ _ works := retention.retains source works.1
  write works := retention.write works.1

namespace ListSink

theorem list_of_emits {last : Option UInt32} {postings : List Posting}
    {stored stored' : Array Posting} (emits : Emits emit last postings stored stored') :
    stored'.toList = stored.toList ++ postings := by
  induction postings generalizing last stored with
  | nil =>
    cases emits
    exact (List.append_nil _).symm
  | cons p postings ih =>
    obtain ⟨_, next, emitted, emits⟩ := emits
    cases emitted
    rw [ih emits, Array.toList_push, List.append_assoc]
    rfl

/-- The lists of a sink in memory stay at their numbers. -/
theorem get?_write {σ : Type} [PostingSource σ] (source : σ) {s : ListSink} {place : BitPosition}
    {list : List Posting} (found : s.get? place = some list) :
    (write source s).2.2.get? place = some list := by
  unfold write
  split
  · exact found
  · split
    · unfold get? at found ⊢
      by_cases whole : place.bit = 0
      · rw [if_pos whole] at found ⊢
        obtain ⟨inside, _⟩ := Array.getElem?_eq_some_iff.mp found
        rw [Array.getElem?_push_lt inside]
        rwa [Array.getElem?_eq_getElem inside] at found
      · rw [if_neg whole] at found
        cases found
    · exact found

/-- A sink in memory has the list with the number that a place gives. -/
def retention : Retention ListSink where
  Works _ := True
  Retains s place list := s.get? place = some list
  works _ _ _ := trivial
  retains source _ _ _ _ found := get?_write source found
  write := by
    intro σ _ source source' s s' place _ written
    have written : write source s = (.ok place, source', s') := written
    unfold write at written
    split at written
    · cases written
    · split at written
      · rename_i drained
        cases written
        obtain ⟨postings, yields, emits⟩ := yields_of_drain drained
        have list := list_of_emits emits
        refine ⟨postings, yields, emits.ascending, ?_⟩
        rw [list]
        simp [get?, position]
      · cases written

end ListSink

namespace PostingWriter

variable {W : Type} [ByteSink W] [FaithfulSink W] {layout : Layout}

/-- A posting that was emitted fits and is written as its code; one that was not may leave a part
of its code. Over a sink that never fails every posting that fits is emitted. -/
theorem emit_keeps {bits : BitWriter W} (layout : Layout) (last : Option UInt32) (p : Posting)
    (h : bits.Coherent) :
    (emit layout last p bits).2.Coherent ∧
      (∃ part, (emit layout last p bits).2.written = bits.written ++ part ∧
        ((emit layout last p bits).1 = .ok () →
          layout.check p = .ok () ∧ part = p.code layout last)) ∧
      (NeverFails bits.sink → NeverFails (emit layout last p bits).2.sink) := by
  unfold emit
  cases fits : layout.check p with
  | error e => exact ⟨h, ⟨[], (List.append_nil _).symm, nofun⟩, id⟩
  | ok done =>
    have ⟨coherent, ⟨part, _, written, whole⟩, reliable⟩ :=
      BitWriter.writeCode_keeps h (p.code layout last)
    exact ⟨coherent, ⟨part, written, fun done => ⟨rfl, whole done⟩⟩,
      fun never => (reliable never).2⟩

/-- What was written stays in front of what is written later, whatever fails. -/
theorem written_drain {σ : Type} [PostingSource σ] (source : σ) {bits : BitWriter W}
    (h : bits.Coherent) :
    (drain (emit layout) none source bits).2.2.Coherent ∧
      (∃ more, (drain (emit layout) none source bits).2.2.written = bits.written ++ more) ∧
      (NeverFails bits.sink → NeverFails (drain (emit layout) none source bits).2.2.sink) := by
  refine drain_keeps (P := fun after : BitWriter W => after.Coherent ∧
    (∃ more, after.written = bits.written ++ more) ∧
    (NeverFails bits.sink → NeverFails after.sink)) ?_ none source bits
    ⟨h, ⟨[], (List.append_nil _).symm⟩, id⟩
  rintro last p state ⟨coherent, ⟨more, written⟩, never⟩
  have ⟨coherent', ⟨part, written', _⟩, never'⟩ := emit_keeps layout last p coherent
  refine ⟨coherent', ⟨more ++ part, ?_⟩, fun reliable => never' (never reliable)⟩
  rw [written', written, List.append_assoc]

/-- Postings that were emitted fit and are written as their code. -/
theorem code_of_emits {bits bits' : BitWriter W} {last : Option UInt32} {postings : List Posting}
    (h : bits.Coherent) (emits : Emits (emit layout) last postings bits bits') :
    (∀ p ∈ postings, layout.check p = .ok ()) ∧
      bits'.written = bits.written ++ postingsCode layout last postings := by
  induction postings generalizing last bits with
  | nil =>
    cases emits
    exact ⟨by simp, (List.append_nil _).symm⟩
  | cons p postings ih =>
    obtain ⟨_, next, emitted, emits⟩ := emits
    have ⟨coherent, ⟨part, written, whole⟩, _⟩ := emit_keeps layout last p h
    rw [emitted] at coherent written whole
    obtain ⟨fits, rfl⟩ := whole rfl
    have ⟨checked, code⟩ := ih coherent emits
    refine ⟨fun q member => ?_, ?_⟩
    · rcases List.mem_cons.mp member with rfl | member
      · exact fits
      · exact checked q member
    · rw [code, written, List.append_assoc]
      rfl

/-- The code of a list begins at a place of what was written, and the list can be read from it. -/
structure Codes (layout : Layout) (written : List Bool) (place : BitPosition)
    (list : List Posting) : Prop where
  fits : ∀ p ∈ list, layout.check p = .ok ()
  ascending : isAscending (list.map Posting.docId) = true
  code : ∃ front rest, place = .ofBits front.length ∧
    written = front ++ (postingsCode layout none list ++ rest)

theorem Codes.append {written : List Bool} {place : BitPosition} {list : List Posting}
    (h : Codes layout written place list) (more : List Bool) :
    Codes layout (written ++ more) place list := by
  obtain ⟨front, rest, here, code⟩ := h.code
  refine ⟨h.fits, h.ascending, front, rest ++ more, here, ?_⟩
  rw [code, List.append_assoc, List.append_assoc]

/-- A writer over an atomic sink has the lists whose codes were written. -/
def looseRetention (W : Type) [ByteSink W] [FaithfulSink W] (layout : Layout) :
    Retention (PostingWriter W) where
  Works w := w.isClosed = false ∧ w.layout = layout ∧ w.bits.Coherent
  Retains w place list := Codes layout w.bits.written place list
  works := by
    rintro σ _ source w ⟨isOpen, same, coherent⟩
    have ⟨coherent', _⟩ := @written_drain _ _ _ layout _ _ source _ coherent
    show (write source w).2.2.isClosed = false ∧ (write source w).2.2.layout = layout ∧
      (write source w).2.2.bits.Coherent
    unfold write
    rw [if_neg (by simp [isOpen]), same]
    split <;> rename_i drained <;> rw [drained] at coherent' <;> exact ⟨isOpen, rfl, coherent'⟩
  retains := by
    rintro σ _ source w place list ⟨isOpen, same, coherent⟩ codes
    have ⟨_, ⟨more, written⟩, _⟩ := @written_drain _ _ _ layout _ _ source _ coherent
    show Codes layout (write source w).2.2.bits.written place list
    unfold write
    rw [if_neg (by simp [isOpen]), same]
    split <;> rename_i drained <;> rw [drained] at written <;> dsimp only at written ⊢ <;>
      rw [written] <;> exact codes.append more
  write := by
    rintro σ _ source source' w w' place ⟨isOpen, rfl, coherent⟩ written
    have written : write source w = (.ok place, source', w') := written
    unfold write at written
    rw [if_neg (by simp [isOpen])] at written
    split at written
    · rename_i bits drained
      cases written
      obtain ⟨postings, yields, emits⟩ := yields_of_drain drained
      have ⟨fits, code⟩ := code_of_emits coherent emits
      refine ⟨postings, yields, emits.ascending, fits, emits.ascending, w.bits.written, [],
        coherent.position_eq, ?_⟩
      rw [List.append_nil]
      exact code
    · cases written

/-- A sink that never fails still does not after a list was written to it. -/
theorem neverFails_write {σ : Type} [PostingSource σ] (source : σ) {w : PostingWriter W}
    (works : (looseRetention W layout).Works w) (never : NeverFails w.bits.sink) :
    NeverFails (PostingSink.write source w).2.2.bits.sink := by
  obtain ⟨isOpen, same, coherent⟩ := works
  have ⟨_, _, never'⟩ := @written_drain _ _ _ layout _ _ source _ coherent
  show NeverFails (write source w).2.2.bits.sink
  unfold write
  rw [if_neg (by simp [isOpen]), same]
  split <;> rename_i drained <;> rw [drained] at never' <;> exact never' never

/-- A writer over a sink that never fails has the lists whose codes were written. -/
def retention (W : Type) [ByteSink W] [FaithfulSink W] (layout : Layout) :
    Retention (PostingWriter W) :=
  (looseRetention W layout).restrict (fun w => NeverFails w.bits.sink) neverFails_write

/-- The code of a list begins at a bit of a byte, if not at the end of the bytes. -/
theorem Codes.place_le {data : List UInt8} {place : BitPosition} {list : List Posting}
    (h : Codes layout (bytesBits data) place list) :
    place.byte ≤ data.length ∧ place.bit < 8 := by
  obtain ⟨front, rest, rfl, code⟩ := h.code
  have length := congrArg List.length code
  rw [length_bytesBits, List.length_append] at length
  simp only [BitPosition.ofBits]
  omega

/-- A list whose code begins at a place of the bits of a byte string is read from there. -/
theorem Codes.readPostings_eq_ok {data : Array UInt8} {place : BitPosition} {list : List Posting}
    (h : Codes layout (bytesBits data.toList) place list) :
    readPostings data place list.length layout = .ok list := by
  obtain ⟨fits, ascending, front, rest, rfl, code⟩ := h
  have fits := fun p member => Layout.check_eq_ok_iff.mp (fits p member)
  exact IndexMerge.readPostings_eq_ok fits (fun p member => (fits p member).length_blocks_le)
    ascending code

/-- The code of each list that a writer has was delivered if the writer could be closed. -/
theorem codes_of_close {w closed : PostingWriter W} (works : (looseRetention W layout).Works w)
    (done : close w = (.ok (), closed)) {place : BitPosition} {list : List Posting}
    (retained : (looseRetention W layout).Retains w place list) :
    Codes layout (bytesBits (FaithfulSink.content closed.bits.sink)) place list := by
  obtain ⟨isOpen, rfl, coherent⟩ := works
  unfold close at done
  rw [if_neg (by simp [isOpen])] at done
  rcases finished : BitWriter.finish w.bits with ⟨_, bits⟩
  rw [finished] at done
  cases done
  rw [(BitWriter.content_of_finish coherent finished).2]
  exact Codes.append retained _

/-- Each list that a writer has is read back if the writer could be closed. -/
theorem readPostings_of_close {w closed : PostingWriter W}
    (works : (looseRetention W layout).Works w) (done : close w = (.ok (), closed))
    {place : BitPosition} {list : List Posting}
    (retained : (looseRetention W layout).Retains w place list) :
    readPostings (FaithfulSink.content closed.bits.sink).toArray place list.length layout =
      .ok list :=
  Codes.readPostings_eq_ok (codes_of_close works done retained)

/-- Each list that a writer over a sink that never fails has is read back when it is closed. -/
theorem readPostings_of_retains {w : PostingWriter W} (works : (retention W layout).Works w) :
    ∃ closed, close w = (.ok (), closed) ∧ ∀ place list, (retention W layout).Retains w place list →
      readPostings (FaithfulSink.content closed.bits.sink).toArray place list.length layout =
        .ok list := by
  obtain ⟨loose, never⟩ := works
  have ⟨isOpen, _, coherent⟩ := loose
  have done : close w = (.ok (), (close w).2) := by
    unfold close
    rw [if_neg (by simp [isOpen])]
    exact Prod.ext ((BitWriter.finish_keeps coherent).2.2 never) rfl
  exact ⟨_, done, fun _ _ retained => readPostings_of_close loose done retained⟩

/-- A new writer over an atomic sink that was given nothing works. -/
theorem loose_start {sink : W} (capacity : Nat) (atomic : Atomic sink)
    (empty : FaithfulSink.content sink = []) :
    (looseRetention W layout).Works (start capacity sink layout) :=
  ⟨rfl, rfl, (BitWriter.coherent_start capacity atomic empty).1⟩

/-- A new writer over a fresh sink works. -/
theorem works_start {sink : W} (capacity : Nat) (fresh : Fresh sink) :
    (retention W layout).Works (start capacity sink layout) :=
  ⟨loose_start capacity fresh.neverFails.atomic fresh.empty, fresh.neverFails⟩

end PostingWriter

end IndexMerge
