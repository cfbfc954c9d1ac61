import IndexMerge.Bytes.Source
import IndexMerge.Lexicon.Entry

/-!
# The lexicon format

A header with the layout of the postings, then one record for each entry, then a trailer with the
number of entries, by which an unfinished lexicon is recognised. All numbers are little-endian.
-/

namespace IndexMerge.LexiconFormat

/-- The number that a lexicon begins with. -/
def magic : UInt32 := 0x4e584c52

/-- The version of the format. -/
def version : UInt16 := 1

/-- The byte before an entry. -/
def entryTag : UInt8 := 1

/-- The byte before the trailer. -/
def trailerTag : UInt8 := 0xff

/-- The bytes before the first entry. -/
def header (layout : Layout) : List UInt8 :=
  bytes32 magic ++ bytes16 version ++ bytes16 layout.fieldCount ++
    bytes16 (if layout.blocks then 1 else 0)

/-- The bytes of an entry with its identifier and pointer. -/
def entry (term : Term) (s : TermStatistics) (id : UInt32) (pointer : BitPosition) : List UInt8 :=
  entryTag :: bytes16 (UInt16.ofNat term.length) ++ term ++ bytes32 id ++
    bytes32 s.documentFrequency ++ bytes64 s.frequency ++ s.fieldFrequencies.flatMap bytes64 ++
    toLittleEndian 8 pointer.byte ++ [UInt8.ofNat pointer.bit]

/-- The bytes behind the last entry. -/
def trailer (count : Nat) : List UInt8 := trailerTag :: toLittleEndian 8 count

/-- Reads a header. -/
def decodeHeader : Decode Layout := do
  let first ← Decode.u32
  Decode.require (first == magic) .lexiconMagic
  let second ← Decode.u16
  Decode.require (second == version) .lexiconVersion
  let fieldCount ← Decode.u16
  let flags ← Decode.u16
  Decode.require (flags ≤ 1) .flags
  return ⟨fieldCount, flags == 1⟩

/-- Reads the rest of an entry behind its tag. -/
def decodeEntry (fieldCount : UInt16) : Decode LexiconEntry := do
  let length ← Decode.u16
  let term ← Decode.bytes length.toNat
  let id ← Decode.u32
  let documentFrequency ← Decode.u32
  let frequency ← Decode.u64
  let fieldFrequencies ← Decode.u64.times fieldCount.toNat
  let byte ← Decode.word 8
  let bit ← Decode.u8
  Decode.require (bit < 8) .pointerBit
  return { term, statistics := {
    documentFrequency, frequency, fieldFrequencies
    termId := some id
    pointer := some ⟨byte, bit.toNat⟩ } }

end IndexMerge.LexiconFormat
