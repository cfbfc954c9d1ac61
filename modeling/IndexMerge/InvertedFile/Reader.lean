import IndexMerge.Bits.Reader
import IndexMerge.Posting.Basic

/-!
# Reading posting lists

Decodes a list from the place where it begins, given the number of its postings. Numbers that no
writer could have written are refused.
-/

namespace IndexMerge

/-- A reader within a posting list. -/
structure PostingReader where
  bits : BitReader
  layout : Layout
  /-- The number of postings left. -/
  remaining : Nat
  /-- The document read last. -/
  last : Option UInt32
  deriving Repr

namespace PostingReader

/-- A reader before a list of `count` postings. -/
def at? (data : Array UInt8) (start : BitPosition) (count : Nat) (layout : Layout) :
    Except Error PostingReader := do
  let bits ← BitReader.at? data start
  return ⟨bits, layout, count, none⟩

/-- A number as a word of 32 bits. -/
def narrow (part : PostingPart) (value : Nat) : Attempt Error BitReader UInt32 :=
  if value < UInt32.size then pure (UInt32.ofNat value) else throw (.format (.overflow part value))

/-- Reads a gap and adds it to the last number. -/
def readGap (part : PostingPart) (last : Option UInt32) : Attempt Error BitReader UInt32 := do
  let gap ← BitReader.readGamma
  narrow part (match last with
    | some last => last.toNat + gap
    | none => gap - 1)

/-- Reads `count` blocks behind those that are done. -/
def readBlocks : Nat → Option UInt32 → Array UInt32 → Attempt Error BitReader (List UInt32)
  | 0, _, done, bits => (.ok done.toList, bits)
  | count + 1, last, done, bits =>
    match readGap .block last bits with
    | (.ok block, bits) => readBlocks count (some block) (done.push block) bits
    | (.error e, bits) => (.error e, bits)

/-- Reads a frequency of a field. -/
def readField : Attempt Error BitReader UInt32 := do
  narrow .fieldFrequency ((← BitReader.readGamma) - 1)

/-- Reads a posting behind a document of its list. -/
def readPosting (layout : Layout) (last : Option UInt32) : Attempt Error BitReader Posting := do
  let docId ← readGap .docId last
  let frequency ← narrow .frequency (← BitReader.readGamma)
  let fieldFrequencies ← readField.times layout.fieldCount.toNat
  let blocks ←
    if layout.blocks then do
      let count ← BitReader.readGamma
      readBlocks (count - 1) none #[]
    else pure []
  return { docId, frequency, fieldFrequencies, blocks }

/-- The next posting, or none at the end. A posting that cannot be read stays to be read. -/
def next (r : PostingReader) : Option (Except Error Posting) × PostingReader :=
  if r.remaining = 0 then (none, r)
  else match readPosting r.layout r.last r.bits with
    | (.ok p, bits) =>
      (some (.ok p), { r with bits, remaining := r.remaining - 1, last := some p.docId })
    | (.error e, bits) => (some (.error e), { r with bits })

/-- Reads `count` postings behind those that are done, up to the first failure. -/
def readOnto (layout : Layout) :
    Nat → Option UInt32 → Array Posting → Attempt Error BitReader (List Posting)
  | 0, _, done, bits => (.ok done.toList, bits)
  | count + 1, last, done, bits =>
    match readPosting layout last bits with
    | (.ok p, bits) => readOnto layout count (some p.docId) (done.push p) bits
    | (.error e, bits) => (.error e, bits)

end PostingReader

/-- The list of `count` postings that begins at a place. -/
def readPostings (data : Array UInt8) (start : BitPosition) (count : Nat) (layout : Layout) :
    Except Error (List Posting) := do
  let bits ← BitReader.at? data start
  (PostingReader.readOnto layout count none #[] bits).1

end IndexMerge
