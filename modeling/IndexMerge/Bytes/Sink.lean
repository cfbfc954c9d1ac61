import IndexMerge.Attempt
import IndexMerge.Error

/-!
# Byte sinks

Where finished output goes: chunks of bytes are delivered in order, and sealing says that nothing
more will come. A delivery that fails may be repeated by the caller.
-/

namespace IndexMerge

/-- Something that takes chunks of bytes and can be sealed. -/
class ByteSink (W : Type) where
  /-- Delivers a chunk. -/
  write : Array UInt8 → Attempt IoFault W Unit
  /-- Says that the output is complete. -/
  finish : Attempt IoFault W Unit

/-- A buffer takes everything. -/
instance : ByteSink (Array UInt8) where
  write chunk := fun buffer => (.ok (), buffer ++ chunk)
  finish := fun buffer => (.ok (), buffer)

/-- A new file. It takes chunks until it is sealed, and can be sealed once. -/
structure OutputFile where
  bytes : Array UInt8
  isSealed : Bool
  deriving DecidableEq, Repr, Inhabited

namespace OutputFile

/-- A file without content. -/
def empty : OutputFile := ⟨#[], false⟩

instance : ByteSink OutputFile where
  write chunk := fun file =>
    if file.isSealed then (.error .alreadySealed, file)
    else (.ok (), { file with bytes := file.bytes ++ chunk })
  finish := fun file =>
    if file.isSealed then (.error .alreadySealed, file)
    else (.ok (), { file with isSealed := true })

end OutputFile

end IndexMerge
