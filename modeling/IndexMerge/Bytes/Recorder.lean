import IndexMerge.Bytes.Sink

/-!
# Recording sinks

A sink that keeps what it was given and fails on request: every pattern of failing deliveries and
of failing seals is one value of `Recorder`. A delivery that fails keeps nothing.
-/

namespace IndexMerge

/-- What a sink was given, and which of its calls fail. -/
structure Recorder where
  bytes : Array UInt8
  chunkSizes : Array Nat
  writes : Nat
  seals : Nat
  /-- Whether the delivery with this number, counted from zero, fails. -/
  failsWrite : Nat → Bool
  /-- Whether the seal with this number, counted from zero, fails. -/
  failsSeal : Nat → Bool

namespace Recorder

/-- A sink that was given nothing yet. -/
def start (failsWrite failsSeal : Nat → Bool) : Recorder :=
  ⟨#[], #[], 0, 0, failsWrite, failsSeal⟩

/-- Records a delivery. -/
def write (chunk : Array UInt8) : Attempt IoFault Recorder Unit := fun r =>
  let counted := { r with writes := r.writes + 1 }
  if r.failsWrite r.writes then (.error .deviceLost, counted)
  else (.ok (), { counted with
    bytes := r.bytes ++ chunk, chunkSizes := r.chunkSizes.push chunk.size })

/-- Records a seal. -/
def finish : Attempt IoFault Recorder Unit := fun r =>
  let counted := { r with seals := r.seals + 1 }
  if r.failsSeal r.seals then (.error .deviceLost, counted) else (.ok (), counted)

instance : ByteSink Recorder := ⟨write, finish⟩

end Recorder

end IndexMerge
