import IndexMerge.Bytes.Progress
import IndexMerge.Lexicon.Record

/-!
# Reading a lexicon

A reader gives the entries one by one. It is done at the trailer, if that counts the entries that
were read, and after the first failure.
-/

namespace IndexMerge

/-- A reader of a lexicon behind its header. -/
structure LexiconReader where
  source : ByteSource
  layout : Layout
  /-- The number of entries read. -/
  count : Nat
  isDone : Bool
  deriving Repr

namespace LexiconReader

/-- Reads the header. -/
def start (source : ByteSource) : Except Error LexiconReader :=
  match LexiconFormat.decodeHeader source with
  | (.ok layout, source) => .ok ⟨source, layout, 0, false⟩
  | (.error e, _) => .error e

/-- Reads the tag before an entry or the trailer. A lexicon may not end there. -/
def decodeTag : Decode UInt8 := fun source =>
  match ByteSource.take 1 source with
  | (.ok tag, source) => (.ok (UInt8.ofNat (ofLittleEndian tag)), source)
  | (.error .shortRead, source) => (.error (.format .missingTrailer), source)
  | (.error fault, source) => (.error (.io "" fault), source)

/-- Reads behind a tag: an entry, or the trailer, which has to count the entries before it. -/
def decodeBody (layout : Layout) (count : Nat) (tag : UInt8) : Decode (Option LexiconEntry) :=
  if tag = LexiconFormat.entryTag then some <$> LexiconFormat.decodeEntry layout.fieldCount
  else if tag = LexiconFormat.trailerTag then do
    let total ← Decode.word 8
    Decode.require (total == count) (.trailerCount total count)
    return none
  else throw (.format (.unknownTag tag))

/-- Reads an entry or the trailer. -/
def decodeNext (layout : Layout) (count : Nat) : Decode (Option LexiconEntry) :=
  decodeTag >>= decodeBody layout count

/-- The next entry, or none when the reader is done. -/
def next (r : LexiconReader) : Option (Except Error LexiconEntry) × LexiconReader :=
  if r.isDone then (none, r)
  else match decodeNext r.layout r.count r.source with
    | (.ok (some e), source) => (some (.ok e), { r with source, count := r.count + 1 })
    | (.ok none, source) => (none, { r with source, isDone := true })
    | (.error e, source) => (some (.error e), { r with source, isDone := true })

theorem length_decodeTag {source source' : ByteSource} {tag : UInt8}
    (h : decodeTag source = (.ok tag, source')) : source'.bytes.length < source.bytes.length := by
  unfold decodeTag at h
  split at h
  · rename_i taken
    cases h
    have ⟨one, split, _⟩ := ByteSource.take_eq_ok taken
    rw [split, List.length_append]
    omega
  · cases h
  · cases h

theorem forward_decodeBody (layout : Layout) (count : Nat) (tag : UInt8) :
    (decodeBody layout count tag).Forward := by
  unfold decodeBody
  split
  · refine .map _ (.bind .u16 fun _ => .bind (.bytes _) fun _ => .bind .u32 fun _ =>
      .bind .u32 fun _ => .bind .u64 fun _ => .bind (.times .u64 _) fun _ =>
      .bind (.word 8) fun _ => .bind .u8 fun _ => .bind (.require _ _) fun _ => .ofPure _)
  · split
    · exact .bind (.word 8) fun _ => .bind (.require _ _) fun _ => .ofPure _
    · exact .ofThrow _

theorem length_decodeNext {layout : Layout} {count : Nat} {source source' : ByteSource}
    {e : Option LexiconEntry} (h : decodeNext layout count source = (.ok e, source')) :
    source'.bytes.length < source.bytes.length := by
  rw [decodeNext, Attempt.bind_apply] at h
  split at h
  · rename_i tag rest tagged
    have shorter := length_decodeTag tagged
    have forward := forward_decodeBody layout count tag rest
    rw [h] at forward
    exact Nat.lt_of_le_of_lt forward shorter
  · cases h

/-- All that the reader still gives: entries, and perhaps a failure behind them. -/
def items (r : LexiconReader) : List (Except Error LexiconEntry) :=
  if r.isDone then [] else go r.layout r.count r.source #[]
where
  go (layout : Layout) (count : Nat) (source : ByteSource)
      (done : Array (Except Error LexiconEntry)) : List (Except Error LexiconEntry) :=
    match _h : decodeNext layout count source with
    | (.ok (some e), source') => go layout (count + 1) source' (done.push (.ok e))
    | (.ok none, _) => done.toList
    | (.error e, _) => (done.push (.error e)).toList
  termination_by source.bytes.length
  decreasing_by exact length_decodeNext _h

end LexiconReader

end IndexMerge
