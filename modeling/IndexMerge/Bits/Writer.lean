import IndexMerge.Bits.Code
import IndexMerge.Bits.Position
import IndexMerge.Bytes.Sink

/-!
# Writing bits

Bits are collected into bytes, bytes are staged, and the staged bytes are delivered to a sink when
they reach the writer's capacity. A delivery that fails keeps the bytes staged, so a later one
repeats it: at any time the bits written are those delivered, staged and pending, in this order.
-/

namespace IndexMerge

/-- A writer of bits over a sink. -/
structure BitWriter (W : Type) where
  sink : W
  /-- Full bytes that are not delivered yet. -/
  staged : Array UInt8
  /-- The number of staged bytes that asks for a delivery. -/
  capacity : Nat
  /-- The number of bytes delivered. -/
  flushed : Nat
  /-- The bits of the unfinished byte, fewer than eight. -/
  pending : List Bool
  isSealed : Bool

namespace BitWriter

variable {W : Type}

/-- The capacity of a writer that is given none. -/
def defaultCapacity : Nat := 65536

/-- A writer that has written nothing. -/
def start (capacity : Nat) (sink : W) : BitWriter W :=
  { sink, staged := #[], capacity := max capacity 1, flushed := 0, pending := [],
    isSealed := false }

/-- The place behind the last bit written. -/
def position (w : BitWriter W) : BitPosition := ⟨w.flushed + w.staged.size, w.pending.length⟩

variable [ByteSink W]

/-- Delivers the staged bytes, if there are any. -/
def flush : Attempt Error (BitWriter W) Unit := fun w =>
  if w.staged.isEmpty then (.ok (), w)
  else match ByteSink.write w.staged w.sink with
    | (.ok (), sink) =>
      (.ok (), { w with sink, flushed := w.flushed + w.staged.size, staged := #[] })
    | (.error fault, sink) => (.error (.io "writing bit stream" fault), { w with sink })

/-- Stages the pending bits as a byte. -/
def stageByte : Attempt Error (BitWriter W) Unit := fun w =>
  let w := { w with staged := w.staged.push (packByte w.pending), pending := [] }
  if w.capacity ≤ w.staged.size then flush w else (.ok (), w)

/-- Writes a bit. -/
def writeBit (bit : Bool) : Attempt Error (BitWriter W) Unit := fun w =>
  if w.isSealed then (.error (.operation .writeSealedBits), w)
  else
    let w := { w with pending := w.pending ++ [bit] }
    if w.pending.length = 8 then stageByte w else (.ok (), w)

/-- Writes a list of bits up to the first failure. -/
def writeCode : List Bool → Attempt Error (BitWriter W) Unit
  | [], w => (.ok (), w)
  | bit :: code, w =>
    match writeBit bit w with
    | (.ok (), w) => writeCode code w
    | (.error e, w) => (.error e, w)

/-- Writes a run of zeros up to the first failure. -/
def writeZeros : Nat → Attempt Error (BitWriter W) Unit
  | 0, w => (.ok (), w)
  | count + 1, w =>
    match writeBit false w with
    | (.ok (), w) => writeZeros count w
    | (.error e, w) => (.error e, w)

/-- Writes the `count` low bits of a number, at most 64. -/
def writeBits (value count : Nat) : Attempt Error (BitWriter W) Unit :=
  if count ≤ 64 then writeCode (fixedCode count value) else throw (.argument .bitCount)

/-- Writes the unary code of a number from one on. -/
def writeUnary (value : Nat) : Attempt Error (BitWriter W) Unit :=
  if value = 0 then throw (.argument .zeroValue)
  else do
    writeZeros (value - 1)
    writeBit true

/-- Writes the gamma code of a number from one on. -/
def writeGamma (value : Nat) : Attempt Error (BitWriter W) Unit :=
  if value = 0 then throw (.argument .zeroValue) else writeCode (gammaCode value)

/-- Fills the unfinished byte with zeros. -/
def padToByte : Attempt Error (BitWriter W) Unit := fun w =>
  if w.isSealed then (.error (.operation .writeSealedBits), w)
  else if w.pending.isEmpty then (.ok (), w)
  else stageByte w

/-- Delivers everything and seals the sink. A writer whose bytes were delivered counts as sealed
even if the sink then fails to seal. -/
def finish : Attempt Error (BitWriter W) Unit := do
  padToByte
  flush
  fun w =>
    match ByteSink.finish w.sink with
    | (.ok (), sink) => (.ok (), { w with sink, isSealed := true })
    | (.error fault, sink) =>
      (.error (.io "sealing bit stream" fault), { w with sink, isSealed := true })

end BitWriter

end IndexMerge
