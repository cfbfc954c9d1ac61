import IndexMerge.Run.Cursor
import IndexMerge.Run.Record

/-!
# Cursors over stored runs

A cursor that decodes a run while it walks. The head of an entry is decoded by an advance, its
postings only when they are asked for; what was not decoded is passed over by the next advance.
Bytes are not trusted: terms have to ascend, postings have to keep within their recorded length
and within the document range of the header, and documents have to ascend.
-/

namespace IndexMerge

/-- A cursor over the bytes of a run. -/
structure StoredCursor where
  /-- The bytes ahead, until the cursor is closed. -/
  source : Option ByteSource
  /-- How the source is called in failures. -/
  name : String
  header : RunHeader
  term : Term
  statistics : TermStatistics
  /-- Whether the cursor stands on an entry. -/
  isPositioned : Bool
  /-- The number of terms ahead. -/
  remainingTerms : Nat
  /-- The number of postings of the entry that were not decoded. -/
  pendingPostings : Nat
  /-- The number of bytes of the entry's postings that were not consumed. -/
  pendingBytes : Nat
  /-- The document given last since postings were begun. -/
  lastDoc : Option UInt32
  deriving Repr

namespace StoredCursor

/-- A cursor before the first entry of the run whose header a source begins with. -/
def start (name : String) (source : ByteSource) : Except Error StoredCursor :=
  match RunHeader.decode source with
  | (.error e, _) => .error (e.within name)
  | (.ok header, source) => .ok {
      source := some source
      name, header
      term := []
      statistics := .empty
      isPositioned := false
      remainingTerms := header.termCount.toNat
      pendingPostings := 0
      pendingBytes := 0
      lastDoc := none }

theorem start_of_decode {name : String} {source rest : ByteSource} {header : RunHeader}
    (decoded : RunHeader.decode source = (.ok header, rest)) : start name source = .ok {
      source := some rest
      name, header
      term := []
      statistics := .empty
      isPositioned := false
      remainingTerms := header.termCount.toNat
      pendingPostings := 0
      pendingBytes := 0
      lastDoc := none } := by
  rw [start, decoded]

/-- The number of the run. -/
def runIndex (c : StoredCursor) : Nat := c.header.runIndex.toNat

/-- Whether there are terms ahead of a cursor that is open. -/
def hasNext (c : StoredCursor) : Bool := c.source.isSome && c.remainingTerms != 0

/-- Passes over the postings of the entry that were not decoded. -/
def skipPostings (term : Term) (pending : Nat) : Decode Unit := do
  let skipped ← (ByteSource.skip pending).rename (Error.io "")
  if skipped ≠ pending then throw (.format (.truncatedPostings term))

/-- Decodes the head of the next entry, whose term has to follow that of the current one. -/
def decodeHead (layout : Layout) (last : Option Term) : Decode EntryHead := do
  let head ← EntryHead.decode layout
  match last.filter (fun last => !last.precedes head.term) with
  | some last => throw (.format (.termOrder head.term last))
  | none => return head

/-- Goes to the next entry. A cursor that fails here keeps its entry. -/
def advance : Attempt Error StoredCursor Unit := fun c =>
  match c.source with
  | none => (.error (.operation .advanceClosed), c)
  | some source =>
    match c.remainingTerms with
    | 0 => (.error (.operation (.advancePastEnd c.runIndex)), c)
    | remaining + 1 =>
      let last := if c.isPositioned then some c.term else none
      let step := do
        skipPostings c.term c.pendingBytes
        decodeHead c.header.layout last
      match step source with
      | (.error e, source) => (.error (e.within c.name), { c with source := some source })
      | (.ok head, source) => (.ok (), { c with
          source := some source
          term := head.term
          statistics := head.statistics
          isPositioned := true
          remainingTerms := remaining
          pendingPostings := head.statistics.documentFrequency.toNat
          pendingBytes := head.postingBytes
          lastDoc := none })

/-- Gives up the bytes ahead. The entry can still be seen, but not its postings. -/
def close : Attempt Error StoredCursor Unit := fun c => (.ok (), { c with source := none })

/-- Begins to give postings. Those that were decoded before do not come back. -/
def openPostings (c : StoredCursor) : StoredCursor := { c with lastDoc := none }

/-- Refuses a document outside the range of the header or not behind the one given last. -/
def checkDoc (c : StoredCursor) (doc : UInt32) : Except Error Unit :=
  if doc < c.header.firstDoc || c.header.lastDoc < doc then
    .error (.violation (.outsideRange doc c.header.firstDoc c.header.lastDoc c.header.runIndex))
  else match c.lastDoc.filter (doc ≤ ·) with
    | some last => .error (.violation (.runOrder doc last c.header.runIndex))
    | none => .ok ()

/-- The next posting of the entry. -/
def nextPosting : Attempt Error StoredCursor (Option Posting) := fun c =>
  match c.source, c.pendingPostings with
  | some source, pending + 1 =>
    match Posting.decodeSized c.header.layout source with
    | (.error e, source) => (.error e, { c with source := some source })
    | (.ok (p, size), source) =>
      let c := { c with source := some source }
      if c.pendingBytes < size then
        (.error (.format (.postingsOverrun c.header.runIndex)), c)
      else
        let c := { c with pendingPostings := pending, pendingBytes := c.pendingBytes - size }
        match c.checkDoc p.docId with
        | .error e => (.error e, c)
        | .ok () => (.ok (some p), { c with lastDoc := some p.docId })
  | _, _ => (.ok none, c)

instance : RunCursor StoredCursor where
  runIndex := runIndex
  term := term
  statistics := statistics
  hasNext := hasNext
  advance := advance
  close := close
  openPostings := openPostings
  nextPosting := nextPosting
  entriesLeft c := c.remainingTerms
  postingsLeft c := c.pendingPostings
  entriesLeft_advance := by
    intro c c' h
    unfold advance at h
    split at h
    · cases h
    · split at h
      · cases h
      · rename_i remaining
        dsimp only at h
        split at h
        · cases h
        · cases h
          simp [remaining]
  entriesLeft_openPostings _ := rfl
  entriesLeft_nextPosting := by
    intro c
    unfold nextPosting
    split
    · split
      · rfl
      · dsimp only
        split
        · rfl
        · split <;> rfl
    · rfl
  postingsLeft_nextPosting := by
    intro c c' p h
    unfold nextPosting at h
    split at h
    · rename_i pending
      split at h
      · cases h
      · dsimp only at h
        split at h
        · cases h
        · split at h
          · cases h
          · cases h
            simp [pending]
    · cases h

end StoredCursor

end IndexMerge
