import IndexMerge.Run.Header
import IndexMerge.Bytes.Sink

/-!
# Stored entries

An entry of a stored run is a head, with the term, its statistics and the number of bytes that its
postings take, and the postings. By that number a reader passes over postings without decoding them.
-/

namespace IndexMerge

namespace Posting

/-- The bytes of a posting. -/
def encode (layout : Layout) (p : Posting) : List UInt8 :=
  bytes32 p.docId ++ bytes32 p.frequency ++ p.fieldFrequencies.flatMap bytes32 ++
    if layout.blocks then
      bytes32 (UInt32.ofNat p.blocks.length) ++ p.blocks.flatMap bytes32
    else []

/-- Reads a posting. The number of bytes that it takes is reckoned from the counts of its parts. -/
def decodeSized (layout : Layout) : Decode (Posting × Nat) := do
  let docId ← Decode.u32
  let frequency ← Decode.u32
  let fieldFrequencies ← Decode.u32.times layout.fieldCount.toNat
  let size := 8 + 4 * layout.fieldCount.toNat
  if layout.blocks then
    let count ← Decode.u32
    let blocks ← Decode.u32.times count.toNat
    return ({ docId, frequency, fieldFrequencies, blocks }, size + (4 + 4 * count.toNat))
  else return ({ docId, frequency, fieldFrequencies, blocks := [] }, size)

/-- Reads a posting. -/
def decode (layout : Layout) : Decode Posting := Prod.fst <$> decodeSized layout

/-- The number of bytes of a posting. -/
def storedSize (layout : Layout) (p : Posting) : Nat :=
  8 + 4 * p.fieldFrequencies.length + if layout.blocks then 4 + 4 * p.blocks.length else 0

end Posting

/-- What is stored before the postings of an entry. -/
structure EntryHead where
  term : Term
  statistics : TermStatistics
  /-- The number of bytes that the postings take. -/
  postingBytes : Nat
  deriving DecidableEq, Repr, Inhabited

namespace EntryHead

/-- The bytes of a head before the number of bytes of the postings. -/
def encodeTerm (term : Term) (statistics : TermStatistics) : List UInt8 :=
  bytes16 (UInt16.ofNat term.length) ++ term ++ bytes32 statistics.documentFrequency ++
    bytes64 statistics.frequency ++ statistics.fieldFrequencies.flatMap bytes64

/-- The bytes of a head. -/
def encode (h : EntryHead) : List UInt8 :=
  encodeTerm h.term h.statistics ++ toLittleEndian 8 h.postingBytes

/-- Reads a head. An entry has at least one posting. -/
def decode (layout : Layout) : Decode EntryHead := do
  let length ← Decode.u16
  let term ← Decode.bytes length.toNat
  let documentFrequency ← Decode.u32
  let frequency ← Decode.u64
  let fieldFrequencies ← Decode.u64.times layout.fieldCount.toNat
  let postingBytes ← Decode.word 8
  Decode.require (documentFrequency != 0) .zeroDocumentFrequency
  return { term, postingBytes, statistics := {
    documentFrequency, frequency, fieldFrequencies, termId := none, pointer := none } }

end EntryHead

/-- Puts bytes in the place of those that a buffer has from an index on. -/
def Buffer.overwrite (buffer : Array UInt8) (index : Nat) : List UInt8 → Array UInt8
  | [] => buffer
  | b :: bytes => overwrite (buffer.setIfInBounds index b) (index + 1) bytes

theorem Buffer.toList_overwrite {front old bytes : List UInt8} (same : old.length = bytes.length)
    (behind : List UInt8) : (overwrite (front ++ old ++ behind).toArray front.length bytes).toList =
      front ++ bytes ++ behind := by
  induction bytes generalizing front old with
  | nil => rw [List.length_eq_zero_iff.mp same]; rfl
  | cons b bytes ih =>
    obtain ⟨o, old, rfl⟩ := List.exists_cons_of_length_eq_add_one same
    have set : (front ++ o :: old ++ behind).toArray.setIfInBounds front.length b =
        ((front ++ [b]) ++ old ++ behind).toArray := by
      simp
    have next := @ih (front ++ [b]) old (Nat.succ.inj same)
    rw [overwrite, set]
    rw [List.length_append] at next
    exact next.trans (by simp)

namespace RunEntry

/-- The bytes of an entry. -/
def encode (layout : Layout) (e : RunEntry) : List UInt8 :=
  let postings := e.postings.flatMap (Posting.encode layout)
  EntryHead.encode ⟨e.term, e.statistics, postings.length⟩ ++ postings

/-- Writes an entry behind the bytes of a buffer. The number of bytes of the postings is left open,
and filled in when they are written. -/
def write (layout : Layout) (e : RunEntry) (buffer : Array UInt8) : Array UInt8 :=
  let buffer := buffer ++ EntryHead.encodeTerm e.term e.statistics
  let place := buffer.size
  let buffer := buffer ++ toLittleEndian 8 0
  let start := buffer.size
  let buffer := e.postings.foldl (fun buffer p => buffer ++ p.encode layout) buffer
  Buffer.overwrite buffer place (toLittleEndian 8 (buffer.size - start))

theorem foldl_encode (layout : Layout) (postings : List Posting) (buffer : Array UInt8) :
    postings.foldl (fun buffer p => buffer ++ p.encode layout) buffer =
      (buffer.toList ++ postings.flatMap (Posting.encode layout)).toArray := by
  induction postings generalizing buffer with
  | nil => simp
  | cons p postings ih =>
    rw [List.foldl_cons, ih]
    simp

/-- An entry is written as its bytes, behind those of the buffer. -/
theorem toList_write (layout : Layout) (e : RunEntry) (buffer : Array UInt8) :
    (e.write layout buffer).toList = buffer.toList ++ e.encode layout := by
  let front := buffer.toList ++ EntryHead.encodeTerm e.term e.statistics
  let code := e.postings.flatMap (Posting.encode layout)
  have place : (buffer ++ EntryHead.encodeTerm e.term e.statistics).size = front.length := by
    rw [← Array.length_toList]
    simp [front]
  have opened : (buffer ++ EntryHead.encodeTerm e.term e.statistics ++ toLittleEndian 8 0).toList =
      front ++ toLittleEndian 8 0 := by
    simp [front]
  have count : (front ++ toLittleEndian 8 0 ++ code).toArray.size -
      (buffer ++ EntryHead.encodeTerm e.term e.statistics ++ toLittleEndian 8 0).size =
        code.length := by
    rw [List.size_toArray, ← Array.length_toList, opened, List.length_append]
    omega
  unfold write
  dsimp only
  rw [foldl_encode, opened, count, place, Buffer.toList_overwrite (by simp [length_toLittleEndian])]
  simp [front, code, encode, EntryHead.encode]

end RunEntry

namespace Run

/-- The number of bytes after which a chunk of a stored run is delivered. -/
def chunkSize : Nat := 65536

/-- The bytes of entries behind those that are staged, cut into chunks. The last chunk may be
empty. -/
def chunksOf (layout : Layout) (staged : Array UInt8) : List RunEntry → List (Array UInt8)
  | [] => [staged]
  | e :: entries =>
    let staged := e.write layout staged
    if chunkSize ≤ staged.size then staged :: chunksOf layout #[] entries
    else chunksOf layout staged entries

/-- The chunks in which a run is delivered. -/
def chunks (run : Run) : Except Error (List (Array UInt8)) := do
  let header ← run.header
  return chunksOf run.layout header.encode.toArray run.entries.toList

/-- The bytes of a run. -/
def bytes (run : Run) : Except Error (Array UInt8) :=
  return (← run.chunks).foldl (· ++ ·) #[]

/-- Delivers chunks up to the first failure. -/
def deliver {W : Type} [ByteSink W] : List (Array UInt8) → Attempt Error W Unit
  | [], sink => (.ok (), sink)
  | chunk :: chunks, sink =>
    match ByteSink.write chunk sink with
    | (.ok (), sink) => deliver chunks sink
    | (.error fault, sink) => (.error (.io "" fault), sink)

/-- Stores a run in a sink, which is not finished by it. -/
def spill {W : Type} [ByteSink W] (run : Run) : Attempt Error W Unit := fun sink =>
  match run.chunks with
  | .ok chunks => deliver chunks sink
  | .error e => (.error e, sink)

end Run

end IndexMerge
