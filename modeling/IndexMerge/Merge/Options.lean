import IndexMerge.Json.Record

/-!
# Merge options

The settings of a merge, with their defaults. In JSON any of them may be left out, and nothing
else may be given.
-/

namespace IndexMerge

/-- The settings of a merge. The sizes of buffers do not change what is written. -/
structure MergeOptions where
  readBufferSize : Nat := 65536
  writeBufferSize : Nat := 65536
  verifyRanges : Bool := true
  progressInterval : Nat := 100000
  deriving DecidableEq, Repr, Inhabited

namespace MergeOptions

/-- The options that are used where none are given. -/
def default : MergeOptions := {}

/-- The names of the fields. -/
def fieldNames : List String :=
  ["read_buffer_size", "write_buffer_size", "verify_doc_ranges", "progress_interval"]

/-- The options that a value gives. -/
def ofJson? (value : Json) : Option MergeOptions := do
  let fields ← value.record? fieldNames false
  let word := Json.nat? UInt64.size
  let readBufferSize ← Json.optional? fields "read_buffer_size" word default.readBufferSize
  let writeBufferSize ← Json.optional? fields "write_buffer_size" word default.writeBufferSize
  let verifyRanges ← Json.optional? fields "verify_doc_ranges" Json.bool? default.verifyRanges
  let progressInterval ← Json.optional? fields "progress_interval" word default.progressInterval
  return { readBufferSize, writeBufferSize, verifyRanges, progressInterval }

/-- The options that a text gives. -/
def ofText? (text : String) : Option MergeOptions := Json.read? text >>= ofJson?

/-- Options as a value. -/
def toJson (o : MergeOptions) : Json :=
  Json.ofFields [("read_buffer_size", .ofNat o.readBufferSize),
    ("write_buffer_size", .ofNat o.writeBufferSize), ("verify_doc_ranges", .bool o.verifyRanges),
    ("progress_interval", .ofNat o.progressInterval)]

end MergeOptions

end IndexMerge
