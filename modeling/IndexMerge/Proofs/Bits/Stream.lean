import IndexMerge.Proofs.Bits.Writer

/-!
# Streams of bits

A bit writer may be used in any order, and over an atomic sink any of its deliveries may fail, in
the middle of a code as well. Every use adds its code behind what was written before, or a front of
the code if it fails, or nothing if it is refused (`Use`, `Adds`), so what was delivered, staged and
left pending is at any time what the uses added one after another, the position counts it, and
finishing delivers it (`stream_of_uses`). Over a sink that never fails all of this is the same for
every capacity.
-/

namespace IndexMerge.BitWriter

open FaithfulSink

/-- A use of a writer. -/
inductive Use where
  | bit (value : Bool)
  | bits (value count : Nat)
  | unary (value : Nat)
  | gamma (value : Nat)
  | pad
  | finish
  deriving DecidableEq, Repr

namespace Use

/-- Why a use is refused whatever was written before, if it is. -/
def refusal : Use → Option Error
  | .bits _ count => if 64 < count then some (.argument .bitCount) else none
  | .unary value | .gamma value => if value = 0 then some (.argument .zeroValue) else none
  | .bit _ | .pad | .finish => none

/-- The bits that a use stands for behind `before` others. -/
def code (before : Nat) : Use → List Bool
  | .bit value => [value]
  | .bits value count => fixedCode count value
  | .unary value => unaryCode value
  | .gamma value => gammaCode value
  | .pad | .finish => List.replicate (padding before) false

end Use

/-- What a use with this result may add behind `before` bits: its code if it succeeds, nothing if it
is refused, and a front of its code if it fails otherwise. -/
inductive Adds (before : Nat) (u : Use) : Except Error Unit → List Bool → Prop
  | whole (accepted : u.refusal = none) : Adds before u (.ok ()) (u.code before)
  | refused {e : Error} (refused : u.refusal = some e) : Adds before u (.error e) []
  | broken {e : Error} {part : List Bool} (accepted : u.refusal = none)
      (front : part <+: u.code before) : Adds before u (.error e) part

/-- What uses with these results may add one after another. -/
inductive AddsEach : Nat → List Use → List (Except Error Unit) → List (List Bool) → Prop
  | nil {before : Nat} : AddsEach before [] [] []
  | cons {before : Nat} {u : Use} {uses : List Use} {result : Except Error Unit}
      {results : List (Except Error Unit)} {part : List Bool} {parts : List (List Bool)}
      (first : Adds before u result part)
      (others : AddsEach (before + part.length) uses results parts) :
      AddsEach before (u :: uses) (result :: results) (part :: parts)

variable {W : Type} [ByteSink W]

/-- Uses a writer. -/
def use : Use → Attempt Error (BitWriter W) Unit
  | .bit value => writeBit value
  | .bits value count => writeBits value count
  | .unary value => writeUnary value
  | .gamma value => writeGamma value
  | .pad => padToByte
  | .finish => finish

/-- The writer after uses one after another, whether or not they succeed. -/
def after (uses : List Use) (w : BitWriter W) : BitWriter W :=
  uses.foldl (fun w u => (use u w).2) w

/-- The results of uses one after another. -/
def results : List Use → BitWriter W → List (Except Error Unit)
  | [], _ => []
  | u :: uses, w => (use u w).1 :: results uses (use u w).2

@[simp] theorem after_nil (w : BitWriter W) : after [] w = w := rfl

@[simp] theorem after_cons (u : Use) (uses : List Use) (w : BitWriter W) :
    after (u :: uses) w = after uses (use u w).2 := rfl

theorem after_append (a b : List Use) (w : BitWriter W) :
    after (a ++ b) w = after b (after a w) := List.foldl_append

/-! ## Codes bit by bit -/

theorem writeCode_cons (bit : Bool) (code : List Bool) (w : BitWriter W) :
    writeCode (bit :: code) w = (writeBit bit >>= fun _ => writeCode code) w := by
  rw [Attempt.bind_apply, writeCode]
  rcases writeBit bit w with ⟨e | _, w₁⟩ <;> rfl

theorem writeCode_append (a b : List Bool) (w : BitWriter W) :
    writeCode (a ++ b) w = (writeCode a >>= fun _ => writeCode b) w := by
  induction a generalizing w with
  | nil => rfl
  | cons bit a ih =>
    simp only [List.cons_append, writeCode_cons, Attempt.bind_apply]
    rcases writeBit bit w with ⟨e | _, w₁⟩
    · rfl
    · rw [← Attempt.bind_apply]
      exact ih w₁

theorem writeZeros_eq (count : Nat) (w : BitWriter W) :
    writeZeros count w = writeCode (List.replicate count false) w := by
  induction count generalizing w with
  | zero => rfl
  | succ count ih =>
    rw [List.replicate_succ, writeZeros, writeCode]
    rcases writeBit false w with ⟨e | _, w₁⟩
    · rfl
    · exact ih w₁

theorem writeCode_singleton (bit : Bool) (w : BitWriter W) :
    writeCode [bit] w = writeBit bit w := by
  rw [writeCode]
  rcases writeBit bit w with ⟨e | _, w₁⟩ <;> rfl

/-- A use that is not refused writes the bits of its code, unless it also fills or delivers. -/
theorem use_eq_writeCode {u : Use} (accepted : u.refusal = none) (notPad : u ≠ .pad)
    (notFinish : u ≠ .finish) (before : Nat) (w : BitWriter W) :
    use u w = writeCode (u.code before) w := by
  cases u with
  | bit value => exact (writeCode_singleton value w).symm
  | bits value count =>
    have few : count ≤ 64 := by simpa [Use.refusal] using accepted
    show writeBits value count w = _
    rw [writeBits, if_pos few]
    rfl
  | unary value =>
    have positive : value ≠ 0 := by simpa [Use.refusal] using accepted
    show writeUnary value w = _
    simp only [writeUnary, if_neg positive, Use.code, unaryCode, writeCode_append,
      Attempt.bind_apply, writeZeros_eq, writeCode_singleton]
  | gamma value =>
    have positive : value ≠ 0 := by simpa [Use.refusal] using accepted
    show writeGamma value w = _
    rw [writeGamma, if_neg positive]
    rfl
  | pad => exact absurd rfl notPad
  | finish => exact absurd rfl notFinish

/-- A use that is refused leaves the writer as it was. -/
theorem use_of_refusal {u : Use} {e : Error} (refused : u.refusal = some e) (w : BitWriter W) :
    use u w = (.error e, w) := by
  cases u with
  | bits value count =>
    obtain ⟨many, rfl⟩ : 64 < count ∧ .argument .bitCount = e := by
      simpa [Use.refusal] using refused
    show writeBits value count w = _
    rw [writeBits, if_neg (by omega)]
    rfl
  | unary value =>
    obtain ⟨rfl, rfl⟩ : value = 0 ∧ .argument .zeroValue = e := by
      simpa [Use.refusal] using refused
    rfl
  | gamma value =>
    obtain ⟨rfl, rfl⟩ : value = 0 ∧ .argument .zeroValue = e := by
      simpa [Use.refusal] using refused
    rfl
  | bit | pad | finish => cases refused

/-- A sealed writer stays as it is, and what it answers depends on the use alone. -/
theorem use_of_isSealed (u : Use) :
    ∃ answer, (∀ before, Adds before u answer []) ∧
      ∀ w : BitWriter W, w.isSealed = true → use u w = (answer, w) := by
  have broken : u.refusal = none → ∀ before,
      Adds before u (.error (.operation .writeSealedBits)) [] :=
    fun accepted _ => .broken accepted List.nil_prefix
  have first : ∀ (bit : Bool) (code : List Bool) (w : BitWriter W), w.isSealed = true →
      writeCode (bit :: code) w = (.error (.operation .writeSealedBits), w) := by
    intro bit code w isSealed
    unfold writeCode writeBit
    rw [if_pos isSealed]
  by_cases accepted : u.refusal = none
  · by_cases notPad : u = .pad
    · subst notPad
      refine ⟨_, broken rfl, fun w isSealed => ?_⟩
      show padToByte w = _
      rw [padToByte, if_pos isSealed]
    by_cases notFinish : u = .finish
    · subst notFinish
      refine ⟨_, broken rfl, fun w isSealed => ?_⟩
      show finish w = _
      rw [finish, Attempt.bind_apply, padToByte, if_pos isSealed]
    -- The code of what is left does not depend on the bits before it.
    have code : ∀ before, u.code before = u.code 0 := by
      cases u with
      | pad => exact absurd rfl notPad
      | finish => exact absurd rfl notFinish
      | bit | bits | unary | gamma => exact fun _ => rfl
    cases bits : u.code 0 with
    | nil =>
      refine ⟨.ok (), fun before => ?_, fun w _ => ?_⟩
      · have whole : Adds before u (.ok ()) (u.code before) := .whole accepted
        rwa [code, bits] at whole
      · rw [use_eq_writeCode accepted notPad notFinish 0, bits]
        rfl
    | cons bit rest =>
      refine ⟨_, broken accepted, fun w isSealed => ?_⟩
      rw [use_eq_writeCode accepted notPad notFinish 0, bits]
      exact first bit rest w isSealed
  · obtain ⟨e, refused⟩ := Option.ne_none_iff_exists'.mp accepted
    exact ⟨.error e, fun _ => .refused refused, fun w _ => use_of_refusal refused w⟩

/-! ## One use, and many -/

variable [FaithfulSink W] {w v : BitWriter W}

/-- A writer that lost nothing: it takes bits, or is sealed and has delivered all of them. -/
def Lossless (w : BitWriter W) : Prop := w.Coherent ∨ w.Closed

theorem Lossless.position_eq (h : w.Lossless) : w.position = .ofBits w.written.length := by
  obtain coherent | closed := h
  · exact coherent.position_eq
  · simp only [position, BitPosition.ofBits, closed.written_eq, length_bytesBits, closed.flushed,
      closed.staged, closed.pending, BitPosition.mk.injEq, List.length_nil, Array.size_empty]
    omega

theorem Lossless.pending (h : w.Lossless) : w.pending.length < 8 := by
  obtain coherent | closed := h
  · exact coherent.pending
  · rw [closed.pending]
    exact Nat.zero_lt_succ 7

/-- Finishing with success has delivered what was written, filled with zeros. -/
theorem Lossless.content_of_finish {closed : BitWriter W} (h : w.Lossless)
    (done : finish w = (.ok (), closed)) : bytesBits (content closed.sink) = w.padded := by
  obtain coherent | isClosed := h
  · exact (BitWriter.content_of_finish coherent done).2
  · rw [finish, Attempt.bind_apply, padToByte, if_pos isClosed.isSealed] at done
    cases done

/-- Every use of a writer that takes bits adds its part. Over a sink that never fails only a refused
use fails, and finishing is what closes the writer. -/
theorem Coherent.use_keeps (h : w.Coherent) (u : Use) :
    ((use u w).2.Coherent ∧ (NeverFails w.sink → u ≠ .finish ∧ NeverFails (use u w).2.sink) ∨
      (use u w).2.Closed ∧ u = .finish) ∧
      (∃ part, Adds w.written.length u (use u w).1 part ∧
        (use u w).2.written = w.written ++ part) ∧
      (NeverFails w.sink → (use u w).1 = .ok () ∨ ∃ e, u.refusal = some e) := by
  by_cases accepted : u.refusal = none
  · have adds : (use u w).2.written = w.written ++ u.code w.written.length →
        ∃ part, Adds w.written.length u (use u w).1 part ∧
          (use u w).2.written = w.written ++ part := by
      intro bits
      refine ⟨_, ?_, bits⟩
      rcases (use u w).1 with e | _
      · exact .broken accepted List.prefix_rfl
      · exact .whole accepted
    by_cases notPad : u = .pad
    · subst notPad
      obtain ⟨coherent, -, bits, reliable⟩ := padToByte_keeps h
      exact ⟨Or.inl ⟨coherent, fun never => ⟨by decide, (reliable never).2⟩⟩, adds bits,
        fun never => Or.inl (reliable never).1⟩
    by_cases notFinish : u = .finish
    · subst notFinish
      obtain ⟨bits, ⟨⟨e, failed⟩, coherent⟩ | closed, reliable⟩ := finish_keeps h
      · refine ⟨Or.inl ⟨coherent, fun never => ?_⟩, adds bits, fun never => Or.inl (reliable never)⟩
        rw [reliable never] at failed
        cases failed
      · exact ⟨Or.inr ⟨closed, rfl⟩, adds bits, fun never => Or.inl (reliable never)⟩
    rw [use_eq_writeCode accepted notPad notFinish w.written.length]
    obtain ⟨coherent, ⟨part, front, bits, whole⟩, reliable⟩ :=
      writeCode_keeps h (u.code w.written.length)
    refine ⟨Or.inl ⟨coherent, fun never => ⟨notFinish, (reliable never).2⟩⟩, ⟨part, ?_, bits⟩,
      fun never => Or.inl (reliable never).1⟩
    rcases done : (writeCode (u.code w.written.length) w).1 with e | _
    · exact .broken accepted front
    · rw [whole done]
      exact .whole accepted
  · obtain ⟨e, refused⟩ := Option.ne_none_iff_exists'.mp accepted
    rw [use_of_refusal refused]
    refine ⟨Or.inl ⟨h, fun never => ⟨?_, never⟩⟩, ⟨[], .refused refused, ?_⟩, ?_⟩
    · rintro rfl
      cases refused
    · exact (List.append_nil _).symm
    · exact fun _ => Or.inr ⟨e, refused⟩

/-- Every use adds its part. -/
theorem Lossless.use_keeps (h : w.Lossless) (u : Use) :
    (use u w).2.Lossless ∧ ∃ part, Adds w.written.length u (use u w).1 part ∧
      (use u w).2.written = w.written ++ part := by
  obtain coherent | closed := h
  · obtain ⟨after, adds, -⟩ := coherent.use_keeps u
    refine ⟨?_, adds⟩
    obtain ⟨coherent, -⟩ | ⟨closed, -⟩ := after
    · exact Or.inl coherent
    · exact Or.inr closed
  · obtain ⟨answer, adds, same⟩ := use_of_isSealed (W := W) u
    rw [same w closed.isSealed]
    exact ⟨Or.inr closed, [], adds _, (List.append_nil _).symm⟩

/-- Uses one after another add their parts, and each point of the run lies behind the parts up to
it. -/
theorem Lossless.after_keeps (h : w.Lossless) (uses : List Use) :
    ∃ parts, AddsEach w.written.length uses (results uses w) parts ∧
      ∀ k, (after (uses.take k) w).Lossless ∧
        (after (uses.take k) w).written = w.written ++ (parts.take k).flatten := by
  induction uses generalizing w with
  | nil =>
    refine ⟨[], .nil, fun k => ?_⟩
    rw [List.take_nil, List.take_nil]
    exact ⟨h, (List.append_nil _).symm⟩
  | cons u uses ih =>
    obtain ⟨lossless, part, adds, bits⟩ := h.use_keeps u
    obtain ⟨parts, others, points⟩ := ih lossless
    rw [bits, List.length_append] at others
    refine ⟨part :: parts, .cons adds others, fun k => ?_⟩
    cases k with
    | zero => exact ⟨h, (List.append_nil _).symm⟩
    | succ k =>
      obtain ⟨lossless, written⟩ := points k
      rw [List.take_succ_cons, List.take_succ_cons, after_cons, List.flatten_cons, written, bits,
        List.append_assoc]
      exact ⟨lossless, rfl⟩

/-! ## Capacities -/

/-- Two writers have written the same bits, and both take more over sinks that never fail, or both
are closed. -/
def Alike (w v : BitWriter W) : Prop :=
  w.written = v.written ∧ (w.Ready ∧ v.Ready ∨ w.Closed ∧ v.Closed)

theorem Alike.lossless (h : Alike w v) : w.Lossless ∧ v.Lossless := by
  obtain ⟨-, ⟨left, right⟩ | ⟨left, right⟩⟩ := h
  · exact ⟨Or.inl left.coherent, Or.inl right.coherent⟩
  · exact ⟨Or.inr left, Or.inr right⟩

theorem Alike.position_eq (h : Alike w v) : w.position = v.position := by
  rw [h.lossless.1.position_eq, h.lossless.2.position_eq, h.1]

theorem Alike.isSealed_eq (h : Alike w v) : w.isSealed = v.isSealed := by
  obtain ⟨-, ⟨left, right⟩ | ⟨left, right⟩⟩ := h
  · exact left.isOpen.trans right.isOpen.symm
  · exact left.isSealed.trans right.isSealed.symm

/-- Sealed writers that are alike have delivered the same bytes. -/
theorem Alike.content_eq (h : Alike w v) (isSealed : w.isSealed = true) :
    content w.sink = content v.sink := by
  obtain ⟨same, ⟨left, -⟩ | ⟨left, right⟩⟩ := h
  · rw [left.isOpen] at isSealed
    cases isSealed
  · rw [left.written_eq, right.written_eq] at same
    exact bytesBits_inj.mp same

/-- A use of a writer over a sink that never fails succeeds unless it is refused, adds all of its
code, and leaves the writer ready or, if it finishes it, closed. -/
theorem Ready.use_eq (h : w.Ready) (u : Use) :
    ((use u w).2.Ready ∧ u ≠ .finish ∨ (use u w).2.Closed ∧ u = .finish) ∧
      match u.refusal with
      | none => (use u w).1 = .ok () ∧ (use u w).2.written = w.written ++ u.code w.written.length
      | some e => (use u w).1 = .error e ∧ (use u w).2.written = w.written := by
  obtain ⟨after, ⟨part, adds, bits⟩, reliable⟩ := h.coherent.use_keeps u
  refine ⟨?_, ?_⟩
  · obtain ⟨coherent, never⟩ | closed := after
    · obtain ⟨notFinish, never⟩ := never h.neverFails
      exact Or.inl ⟨coherent.ready never, notFinish⟩
    · exact Or.inr closed
  · generalize (use u w).1 = result at *
    cases adds with
    | whole accepted =>
      rw [accepted]
      exact ⟨rfl, bits⟩
    | refused refused =>
      rw [refused]
      exact ⟨rfl, bits.trans (List.append_nil _)⟩
    | broken accepted front =>
      obtain done | ⟨e, refused⟩ := reliable h.neverFails
      · cases done
      · rw [accepted] at refused
        cases refused

/-- Writers that are alike answer a use alike and stay alike. -/
theorem Alike.use_eq (h : Alike w v) (u : Use) :
    (use u w).1 = (use u v).1 ∧ Alike (use u w).2 (use u v).2 := by
  obtain ⟨same, ⟨left, right⟩ | ⟨left, right⟩⟩ := h
  · obtain ⟨left, written⟩ := left.use_eq u
    obtain ⟨right, written'⟩ := right.use_eq u
    have both : (use u w).2.Ready ∧ (use u v).2.Ready ∨
        (use u w).2.Closed ∧ (use u v).2.Closed := by
      obtain ⟨left, notFinish⟩ | ⟨left, isFinish⟩ := left
      · obtain ⟨right, -⟩ | ⟨-, isFinish⟩ := right
        · exact Or.inl ⟨left, right⟩
        · exact absurd isFinish notFinish
      · obtain ⟨-, notFinish⟩ | ⟨right, -⟩ := right
        · exact absurd isFinish notFinish
        · exact Or.inr ⟨left, right⟩
    cases refused : u.refusal with
    | none =>
      rw [refused] at written written'
      refine ⟨written.1.trans written'.1.symm, ?_, both⟩
      rw [written.2, written'.2, same]
    | some e =>
      rw [refused] at written written'
      refine ⟨written.1.trans written'.1.symm, ?_, both⟩
      rw [written.2, written'.2, same]
  · obtain ⟨answer, -, stays⟩ := use_of_isSealed (W := W) u
    rw [stays w left.isSealed, stays v right.isSealed]
    exact ⟨rfl, same, Or.inr ⟨left, right⟩⟩

theorem Alike.after_eq (h : Alike w v) (uses : List Use) :
    results uses w = results uses v ∧
      ∀ k, Alike (after (uses.take k) w) (after (uses.take k) v) := by
  induction uses generalizing w v with
  | nil =>
    refine ⟨rfl, fun k => ?_⟩
    rw [List.take_nil]
    exact h
  | cons u uses ih =>
    obtain ⟨answer, alike⟩ := h.use_eq u
    obtain ⟨others, points⟩ := ih alike
    refine ⟨by rw [results, results, answer, others], fun k => ?_⟩
    cases k with
    | zero => exact h
    | succ k => exact points k

theorem alike_start {sink : W} (fresh : Fresh sink) (capacity capacity' : Nat) :
    Alike (start capacity sink) (start capacity' sink) := by
  obtain ⟨left, written⟩ := ready_start capacity fresh
  obtain ⟨right, written'⟩ := ready_start capacity' fresh
  exact ⟨written.trans written'.symm, Or.inl ⟨left, right⟩⟩

/-- However a writer over an atomic sink is used, at every point what it has delivered, staged and
left pending is what the uses have added, its position counts that, and if it can be finished then
all of it is delivered, filled with zeros. Over a sink that never fails the results, the positions
and what a sealed writer has delivered are the same for every capacity. -/
theorem stream_of_uses {sink : W} (atomic : Atomic sink) (empty : content sink = [])
    (capacity : Nat) (uses : List Use) :
    (∃ parts, AddsEach 0 uses (results uses (start capacity sink)) parts ∧
      ∀ k, let w := after (uses.take k) (start capacity sink)
        let emitted := (parts.take k).flatten
        bytesBits (content w.sink) ++ bytesBits w.staged.toList ++ w.pending = emitted ∧
        w.pending.length < 8 ∧ w.position = .ofBits emitted.length ∧
        ∀ closed, finish w = (.ok (), closed) → bytesBits (content closed.sink) =
          emitted ++ List.replicate (padding emitted.length) false) ∧
    (NeverFails sink → ∀ capacity',
      results uses (start capacity sink) = results uses (start capacity' sink) ∧
      ∀ k, let w := after (uses.take k) (start capacity sink)
        let v := after (uses.take k) (start capacity' sink)
        w.position = v.position ∧ w.isSealed = v.isSealed ∧
        (w.isSealed = true → content w.sink = content v.sink)) := by
  constructor
  · obtain ⟨coherent, written⟩ := coherent_start capacity atomic empty
    have lossless : (start capacity sink).Lossless := Or.inl coherent
    obtain ⟨parts, adds, points⟩ := lossless.after_keeps uses
    rw [written] at adds
    refine ⟨parts, adds, fun k => ?_⟩
    obtain ⟨lossless, emitted⟩ := points k
    rw [written, List.nil_append] at emitted
    dsimp only
    rw [← emitted]
    exact ⟨rfl, lossless.pending, lossless.position_eq,
      fun _ done => lossless.content_of_finish done⟩
  · intro never capacity'
    obtain ⟨same, alike⟩ := (alike_start ⟨never, empty⟩ capacity capacity').after_eq uses
    exact ⟨same, fun k => ⟨(alike k).position_eq, (alike k).isSealed_eq, (alike k).content_eq⟩⟩

/-- Codes, a refused number, and a bit behind the end. -/
def sampleUses : List Use := [.bits 511 9, .gamma 5, .unary 0, .pad, .finish, .bit true]

/-- A sink of which the first delivery fails. -/
def stumblingSink : Recorder := .start (· == 0) fun _ => false

/-- The first delivery fails in the middle of the first code, whose front is kept. -/
theorem stream_of_uses_failing :
    results sampleUses (start 1 stumblingSink) =
      [.error (.io "writing bit stream" .deviceLost), .ok (), .error (.argument .zeroValue), .ok (),
        .ok (), .error (.operation .writeSealedBits)] ∧
      content (after sampleUses (start 1 stumblingSink)).sink = [255, 40] ∧
      (∃ parts, AddsEach 0 sampleUses (results sampleUses (start 1 stumblingSink)) parts ∧
        ∀ k, (after (sampleUses.take k) (start 1 stumblingSink)).position =
          .ofBits (parts.take k).flatten.length) ∧
      ∀ capacity, results sampleUses (start 1 (#[] : Array UInt8)) =
        results sampleUses (start capacity (#[] : Array UInt8)) := by
  refine ⟨by rfl, by rfl, ?_, fun capacity => ?_⟩
  · obtain ⟨parts, adds, points⟩ :=
      (stream_of_uses (atomic_recorder stumblingSink) rfl 1 sampleUses).1
    exact ⟨parts, adds, fun k => (points k).2.2.1⟩
  · have never := fresh_array.neverFails
    exact ((stream_of_uses never.atomic rfl 1 sampleUses).2 never capacity).1

end IndexMerge.BitWriter
