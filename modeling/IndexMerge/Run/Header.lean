import IndexMerge.Bytes.Source
import IndexMerge.Run.Basic

/-!
# Run headers

What a stored run says of itself before its entries.
-/

namespace IndexMerge

/-- The header of a stored run. An empty run has the document range zero to zero. -/
structure RunHeader where
  runIndex : UInt32
  layout : Layout
  termCount : UInt32
  firstDoc : UInt32
  lastDoc : UInt32
  postingCount : UInt64
  deriving DecidableEq, Repr, Inhabited

namespace RunHeader

/-- The number that a stored run begins with. -/
def magic : UInt32 := 0x4e524d52

/-- The version of the format. -/
def version : UInt16 := 1

/-- Whether the run has no terms. -/
def isEmpty (h : RunHeader) : Bool := h.termCount == 0

/-- The bytes of a header. -/
def encode (h : RunHeader) : List UInt8 :=
  bytes32 magic ++ bytes16 version ++ bytes16 h.layout.fieldCount ++
    bytes16 (if h.layout.blocks then 1 else 0) ++ bytes32 h.runIndex ++ bytes32 h.termCount ++
    bytes32 h.firstDoc ++ bytes32 h.lastDoc ++ bytes64 h.postingCount

/-- Reads a header. -/
def decode : Decode RunHeader := do
  let first ← Decode.u32
  Decode.require (first == magic) .runMagic
  let second ← Decode.u16
  Decode.require (second == version) (.runVersion second)
  let fieldCount ← Decode.u16
  let flags ← Decode.u16
  Decode.require (flags ≤ 1) .flags
  let runIndex ← Decode.u32
  let termCount ← Decode.u32
  let firstDoc ← Decode.u32
  let lastDoc ← Decode.u32
  let postingCount ← Decode.u64
  Decode.require (firstDoc ≤ lastDoc) .documentRange
  let layout := ⟨fieldCount, flags == 1⟩
  return { runIndex, layout, termCount, firstDoc, lastDoc, postingCount }

end RunHeader

/-- The header that a run is stored with. -/
def Run.header (run : Run) : Except Error RunHeader :=
  if UInt32.size ≤ run.index then .error (.argument .runIndexTooLarge)
  else if UInt32.size ≤ run.entries.size then .error (.argument .tooManyTerms)
  else
    let range := run.docRange.getD (0, 0)
    .ok {
      runIndex := UInt32.ofNat run.index
      layout := run.layout
      termCount := UInt32.ofNat run.entries.size
      firstDoc := range.1
      lastDoc := range.2
      postingCount := UInt64.ofNat run.postingCount }

end IndexMerge
