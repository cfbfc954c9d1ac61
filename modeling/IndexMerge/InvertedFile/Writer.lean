import IndexMerge.InvertedFile.Sink
import IndexMerge.InvertedFile.Code
import IndexMerge.Bits.Writer
import IndexMerge.Posting.Layout

/-!
# Writing posting lists

A sink that writes posting lists as a stream of bits. A list begins at any bit. A list that fails
leaves what was written of it in the stream, so later lists begin behind it.
-/

namespace IndexMerge

/-- A writer of posting lists of one layout. -/
structure PostingWriter (W : Type) where
  bits : BitWriter W
  layout : Layout
  isClosed : Bool

namespace PostingWriter

variable {W : Type}

/-- A writer without lists. -/
def start (capacity : Nat) (sink : W) (layout : Layout) : PostingWriter W :=
  ⟨BitWriter.start capacity sink, layout, false⟩

/-- The place behind the last bit written. -/
def position (w : PostingWriter W) : BitPosition := w.bits.position

variable [ByteSink W]

/-- Writes a posting that fits the layout behind another document. -/
def emit (layout : Layout) (last : Option UInt32) (p : Posting) :
    Attempt Error (BitWriter W) Unit := fun bits =>
  match layout.check p with
  | .error e => (.error e, bits)
  | .ok () => BitWriter.writeCode (p.code layout last) bits

/-- Writes a list. -/
def write {σ : Type} [PostingSource σ] (source : σ) (w : PostingWriter W) :
    Except Error BitPosition × σ × PostingWriter W :=
  if w.isClosed then (.error (.operation .writeClosedWriter), source, w)
  else match drain (emit w.layout) none source w.bits with
    | (.ok (), source, bits) => (.ok w.position, source, { w with bits })
    | (.error e, source, bits) => (.error e, source, { w with bits })

/-- Delivers the bits and finishes the sink. Only the first call does so, even if it fails. -/
def close : Attempt Error (PostingWriter W) Unit := fun w =>
  if w.isClosed then (.ok (), w)
  else
    let (result, bits) := BitWriter.finish w.bits
    (result, { w with bits, isClosed := true })

instance : PostingSink (PostingWriter W) where
  write := write
  position := position
  close := close
  write_source := by
    intro σ _ P step source w h
    have kept := drain_source step (emit w.layout) none source w.bits h
    unfold write
    split
    · exact h
    · split <;> rename_i drained <;> rwa [drained] at kept

end PostingWriter

end IndexMerge
