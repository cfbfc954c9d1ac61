import IndexMerge.Bits.Writer
import IndexMerge.Proofs.Bits.Code
import IndexMerge.Proofs.Bytes.Delivery

/-!
# What a bit writer has written

The bits that a writer has written are those of the delivered bytes, of the staged bytes and the
pending ones (`BitWriter.written`). Over an atomic sink a bit that is written is kept even when a
delivery fails, so the position always counts the bits, and a code that fails leaves a part of it
(`writeCode_keeps`). Over a sink that never fails, writing adds exactly the given bits, whatever the
capacity. Finishing delivers the bits, filled with zeros.
-/

namespace IndexMerge.BitWriter

open FaithfulSink

variable {W : Type} [ByteSink W] [FaithfulSink W] {w w' : BitWriter W}

/-- All bits written so far. -/
def written (w : BitWriter W) : List Bool :=
  bytesBits (content w.sink) ++ bytesBits w.staged.toList ++ w.pending

/-- The writer takes bits, and what its sink holds is just what was flushed. -/
structure Coherent (w : BitWriter W) : Prop where
  isOpen : w.isSealed = false
  atomic : Atomic w.sink
  flushed : w.flushed = (content w.sink).length
  pending : w.pending.length < 8

/-- The writer takes bits, and its sink never fails. -/
structure Ready (w : BitWriter W) : Prop where
  isOpen : w.isSealed = false
  neverFails : NeverFails w.sink
  flushed : w.flushed = (content w.sink).length
  pending : w.pending.length < 8

theorem Ready.coherent (h : w.Ready) : w.Coherent :=
  ⟨h.isOpen, h.neverFails.atomic, h.flushed, h.pending⟩

theorem Coherent.ready (h : w.Coherent) (neverFails : NeverFails w.sink) : w.Ready :=
  ⟨h.isOpen, neverFails, h.flushed, h.pending⟩

theorem Coherent.position_eq (h : w.Coherent) : w.position = .ofBits w.written.length := by
  have short := h.pending
  simp only [position, BitPosition.ofBits, written, List.length_append, length_bytesBits,
    h.flushed, Array.length_toList, BitPosition.mk.injEq]
  omega

theorem position_eq (ready : w.Ready) : w.position = .ofBits w.written.length :=
  ready.coherent.position_eq

/-- The step of a writer succeeds if its sink never fails, and then the sink still never does. -/
def Reliable (step : Attempt Error (BitWriter W) Unit) (w : BitWriter W) : Prop :=
  NeverFails w.sink → (step w).1 = .ok () ∧ NeverFails (step w).2.sink

/-- What delivering keeps, whether or not it succeeds. -/
structure Flushed (w w' : BitWriter W) : Prop where
  written : w'.written = w.written
  isSealed : w'.isSealed = w.isSealed
  pending : w'.pending = w.pending
  atomic : Atomic w'.sink
  flushed : w'.flushed = (content w'.sink).length

/-- Delivering changes nothing of what was written. -/
theorem flush_keeps (atomic : Atomic w.sink) (flushed : w.flushed = (content w.sink).length) :
    Flushed w (flush w).2 ∧ ((flush w).1 = .ok () → (flush w).2.staged = #[]) ∧
      Reliable flush w := by
  unfold Reliable flush
  by_cases empty : w.staged.isEmpty = true
  · rw [if_pos empty]
    exact ⟨⟨rfl, rfl, rfl, atomic, flushed⟩, fun _ => by simpa using empty, fun h => ⟨rfl, h⟩⟩
  · rw [if_neg empty]
    have still := atomic.write w.staged
    rcases delivered : ByteSink.write w.staged w.sink with ⟨fault | _, sink⟩ <;>
      rw [delivered] at still
    · have kept := atomic.content_eq delivered
      refine ⟨⟨?_, rfl, rfl, still, ?_⟩, nofun, fun neverFails => ?_⟩
      · simp only [written, kept]
      · simp only [kept, flushed]
      · obtain ⟨_, succeeds, _⟩ := neverFails.write w.staged
        rw [delivered] at succeeds
        cases succeeds
    · have content := content_write delivered
      refine ⟨⟨?_, rfl, rfl, still, ?_⟩, fun _ => rfl, fun neverFails => ?_⟩
      · simp [written, content]
      · simp [content, flushed]
      · obtain ⟨_, succeeds, never⟩ := neverFails.write w.staged
        rw [delivered] at succeeds
        cases succeeds
        exact ⟨rfl, never⟩

/-- Staging keeps the pending bits and fills them with zeros, whether or not a delivery fails. -/
theorem stageByte_keeps (atomic : Atomic w.sink) (flushed : w.flushed = (content w.sink).length)
    (short : w.pending.length ≤ 8) :
    (∃ staged : BitWriter W, Flushed staged (stageByte w).2 ∧ staged.isSealed = w.isSealed ∧
      staged.pending = [] ∧
      staged.written = w.written ++ List.replicate (8 - w.pending.length) false) ∧
      Reliable stageByte w := by
  let staged := { w with staged := w.staged.push (packByte w.pending), pending := [] }
  have bits : staged.written = w.written ++ List.replicate (8 - w.pending.length) false := by
    simp [staged, written, byteBits_packByte short]
  have ⟨kept, _, reliable⟩ := flush_keeps (w := staged) atomic flushed
  unfold Reliable stageByte
  dsimp only
  by_cases full : w.capacity ≤ (w.staged.push (packByte w.pending)).size
  · rw [if_pos full]
    exact ⟨⟨staged, kept, rfl, rfl, bits⟩, reliable⟩
  · rw [if_neg full]
    exact ⟨⟨staged, ⟨rfl, rfl, rfl, atomic, flushed⟩, rfl, rfl, bits⟩, fun h => ⟨rfl, h⟩⟩

/-- A bit is written, even if a delivery fails. -/
theorem writeBit_keeps (h : w.Coherent) (bit : Bool) :
    (writeBit bit w).2.Coherent ∧ (writeBit bit w).2.written = w.written ++ [bit] ∧
      Reliable (writeBit bit) w := by
  let longer := { w with pending := w.pending ++ [bit] }
  have short := h.pending
  have length : longer.pending.length = w.pending.length + 1 := List.length_append
  have added : longer.written = w.written ++ [bit] := by
    simp only [longer, written, List.append_assoc]
  unfold Reliable writeBit
  rw [if_neg (by simp [h.isOpen])]
  dsimp only
  by_cases full : (w.pending ++ [bit]).length = 8
  · obtain ⟨⟨staged, kept, isSealed, pending, bits⟩, reliable⟩ :=
      stageByte_keeps (w := longer) h.atomic h.flushed (Nat.le_of_eq full)
    rw [if_pos full]
    refine ⟨⟨?_, kept.atomic, kept.flushed, ?_⟩, ?_, reliable⟩
    · rw [kept.isSealed, isSealed]
      exact h.isOpen
    · rw [kept.pending, pending]
      exact Nat.zero_lt_succ 7
    · rw [kept.written, bits, added, show longer.pending.length = 8 from full]
      exact List.append_nil _
  · rw [if_neg full]
    have less : longer.pending.length < 8 := by
      rw [length]
      rw [List.length_append, List.length_singleton] at full
      omega
    exact ⟨⟨h.isOpen, h.atomic, h.flushed, less⟩, added, fun h => ⟨rfl, h⟩⟩

/-- A front of a code is written, and all of it unless a delivery fails. -/
theorem writeCode_keeps (h : w.Coherent) (code : List Bool) :
    (writeCode code w).2.Coherent ∧
      (∃ part, part <+: code ∧ (writeCode code w).2.written = w.written ++ part ∧
        ((writeCode code w).1 = .ok () → part = code)) ∧
      Reliable (writeCode code) w := by
  induction code generalizing w with
  | nil => exact ⟨h, ⟨[], List.prefix_rfl, by simp [writeCode], fun _ => rfl⟩,
      fun never => ⟨rfl, never⟩⟩
  | cons bit code ih =>
    have ⟨coherent, bits, reliable⟩ := writeBit_keeps h bit
    unfold Reliable at reliable ⊢
    unfold writeCode
    rcases first : writeBit bit w with ⟨e | _, w₁⟩ <;> rw [first] at coherent bits reliable
    · refine ⟨coherent, ⟨[bit], ⟨code, rfl⟩, bits, nofun⟩, fun never => ?_⟩
      cases (reliable never).1
    · have ⟨coherent', ⟨part, front, bits', whole⟩, reliable'⟩ := ih coherent
      refine ⟨coherent', ⟨bit :: part, ?_, ?_, fun done => by rw [whole done]⟩,
        fun never => reliable' (reliable never).2⟩
      · exact List.cons_prefix_cons.mpr ⟨rfl, front⟩
      · rw [bits', bits, List.append_assoc]
        rfl

/-- Writing a code over a sink that never fails adds its bits. -/
theorem writeCode_eq_ok (ready : w.Ready) (code : List Bool) :
    ∃ w', writeCode code w = (.ok (), w') ∧ w'.Ready ∧ w'.written = w.written ++ code := by
  have ⟨coherent, ⟨part, _, bits, whole⟩, reliable⟩ := writeCode_keeps ready.coherent code
  have ⟨done, never⟩ := reliable ready.neverFails
  refine ⟨(writeCode code w).2, Prod.ext done rfl, coherent.ready never, ?_⟩
  rw [bits, whole done]

/-- The number of zeros that fill the last byte of so many bits. -/
def padding (bits : Nat) : Nat := (8 - bits % 8) % 8

/-- The bits that a writer has written, filled with zeros to the end of the last byte. -/
def padded (w : BitWriter W) : List Bool :=
  w.written ++ List.replicate (padding w.written.length) false

/-- The pending bits are those behind the last full byte. -/
theorem Coherent.length_pending (h : w.Coherent) : w.pending.length = w.written.length % 8 := by
  have place := congrArg BitPosition.bit h.position_eq
  exact place

/-- Filling the unfinished byte adds zeros, even if a delivery fails. -/
theorem padToByte_keeps (h : w.Coherent) :
    (padToByte w).2.Coherent ∧ (padToByte w).2.pending = [] ∧
      (padToByte w).2.written = w.padded ∧ Reliable padToByte w := by
  have length := h.length_pending
  unfold Reliable padToByte padded padding
  rw [if_neg (by simp [h.isOpen]), ← length]
  by_cases empty : w.pending.isEmpty = true
  · have none : w.pending = [] := by simpa using empty
    rw [if_pos empty]
    exact ⟨h, none, by simp [none], fun never => ⟨rfl, never⟩⟩
  · obtain ⟨⟨staged, kept, isSealed, pending, bits⟩, reliable⟩ :=
      stageByte_keeps h.atomic h.flushed (Nat.le_of_lt h.pending)
    have some : w.pending.length ≠ 0 := by simpa using empty
    rw [if_neg empty]
    refine ⟨⟨?_, kept.atomic, kept.flushed, ?_⟩, kept.pending.trans pending, ?_, reliable⟩
    · exact kept.isSealed.trans (isSealed.trans h.isOpen)
    · rw [kept.pending, pending]
      exact Nat.zero_lt_succ 7
    · rw [kept.written, bits, Nat.mod_eq_of_lt (by omega)]

/-- The writer is sealed, and its sink holds all that it has written. -/
structure Closed (w : BitWriter W) : Prop where
  isSealed : w.isSealed = true
  flushed : w.flushed = (content w.sink).length
  staged : w.staged = #[]
  pending : w.pending = []

theorem Closed.written_eq (h : w.Closed) : w.written = bytesBits (content w.sink) := by
  simp [written, h.staged, h.pending]

/-- Finishing adds zeros up to the end of the byte, even if it fails. With success everything is
delivered. A sink that never fails is finished with success. -/
theorem finish_keeps (h : w.Coherent) :
    (finish w).2.written = w.padded ∧
      (((∃ e, (finish w).1 = .error e) ∧ (finish w).2.Coherent) ∨ (finish w).2.Closed) ∧
      (NeverFails w.sink → (finish w).1 = .ok ()) := by
  obtain ⟨coherent, pending, bits, reliable⟩ := padToByte_keeps h
  unfold Reliable at reliable
  unfold finish
  rw [Attempt.bind_apply]
  rcases filled : padToByte w with ⟨e | _, w₁⟩ <;>
    rw [filled] at coherent pending bits reliable
  · refine ⟨bits, Or.inl ⟨⟨e, rfl⟩, coherent⟩, fun never => ?_⟩
    cases (reliable never).1
  dsimp only
  have ⟨kept, emptied, reliable'⟩ := flush_keeps coherent.atomic coherent.flushed
  unfold Reliable at reliable'
  have bits' := kept.written.trans bits
  rw [Attempt.bind_apply]
  rcases delivered : flush w₁ with ⟨e | _, w₂⟩ <;>
    rw [delivered] at kept emptied reliable' bits'
  · refine ⟨bits', Or.inl ⟨⟨e, rfl⟩, ?_⟩, fun never => ?_⟩
    · refine ⟨kept.isSealed.trans coherent.isOpen, kept.atomic, kept.flushed, ?_⟩
      rw [kept.pending]
      exact coherent.pending
    · cases (reliable' (reliable never).2).1
  dsimp only
  have closed : ∀ sink, content sink = content w₂.sink →
      ({ w₂ with sink, isSealed := true } : BitWriter W).Closed := by
    intro sink same
    refine ⟨rfl, ?_, emptied rfl, kept.pending.trans pending⟩
    exact kept.flushed.trans (congrArg List.length same.symm)
  have all : ∀ sink, content sink = content w₂.sink →
      ({ w₂ with sink, isSealed := true } : BitWriter W).written = w.padded := by
    intro sink same
    rw [← bits']
    simp only [written, same]
  have sealed := content_finish w₂.sink
  rcases finished : ByteSink.finish w₂.sink with ⟨fault | _, sink⟩ <;> rw [finished] at sealed
  · refine ⟨all sink sealed, Or.inr (closed sink sealed), fun never => ?_⟩
    obtain ⟨_, succeeds⟩ := (reliable' (reliable never).2).2.finish
    rw [finished] at succeeds
    cases succeeds
  · exact ⟨all sink sealed, Or.inr (closed sink sealed), fun _ => rfl⟩

/-- Finishing with success has delivered what was written, filled with zeros. -/
theorem content_of_finish (h : w.Coherent) (done : finish w = (.ok (), w')) :
    w'.Closed ∧ bytesBits (content w'.sink) = w.padded := by
  obtain ⟨bits, ⟨⟨e, failed⟩, -⟩ | closed, -⟩ := finish_keeps h <;> rw [done] at *
  · cases failed
  · exact ⟨closed, closed.written_eq.symm.trans bits⟩

/-- Finishing over a sink that never fails delivers what was written, filled with zeros. -/
theorem finish_eq_ok (ready : w.Ready) :
    ∃ w', finish w = (.ok (), w') ∧ bytesBits (content w'.sink) = w.padded := by
  have done : finish w = (.ok (), (finish w).2) :=
    Prod.ext ((finish_keeps ready.coherent).2.2 ready.neverFails) rfl
  exact ⟨_, done, (content_of_finish ready.coherent done).2⟩

/-- A writer over an atomic sink that was given nothing has written nothing. -/
theorem coherent_start {sink : W} (capacity : Nat) (atomic : Atomic sink)
    (empty : content sink = []) :
    (start capacity sink).Coherent ∧ (start capacity sink).written = [] :=
  ⟨⟨rfl, atomic, by simp [start, empty], Nat.zero_lt_succ 7⟩, by simp [written, start, empty]⟩

/-- A writer over a fresh sink has written nothing. -/
theorem ready_start {sink : W} (capacity : Nat) (fresh : Fresh sink) :
    (start capacity sink).Ready ∧ (start capacity sink).written = [] := by
  have ⟨coherent, written⟩ := coherent_start capacity fresh.neverFails.atomic fresh.empty
  exact ⟨coherent.ready fresh.neverFails, written⟩

end IndexMerge.BitWriter
