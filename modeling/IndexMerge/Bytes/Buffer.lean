/-!
# Buffers

What is read and written through a buffer does not depend on its size. But a size that no memory
can have stops the program before anything else is done.
-/

namespace IndexMerge.Buffer

/-- The most bytes that can be asked for: a distance within memory is a number of 64 bits with a
sign. -/
def maxSize : Nat := 0x7FFFFFFFFFFFFFFF

/-- Whether a number of bytes can be asked for. -/
def fits (size : Nat) : Bool := size ≤ maxSize

/-- What is told when they cannot. -/
def overflow : String := "capacity overflow"

end IndexMerge.Buffer
