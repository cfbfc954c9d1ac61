import IndexMerge.Command.Outcome
import IndexMerge.Merge.Lease
import IndexMerge.Posting.Text
import IndexMerge.Run.Opener
import IndexMerge.Text.Size

/-!
# The inspect command

Shows the header of a run file and, when asked, its terms and their postings, as a JSON text.
-/

namespace IndexMerge.Command

/-- How much of a run is shown. -/
structure InspectRequest where
  path : String
  terms : Bool
  postings : Bool
  deriving Repr

/-- A term that is shown. -/
structure TermSummary where
  term : Term
  statistics : TermStatistics
  postings : List Posting

/-- A list under a name, unless it is empty. -/
def listField (name : String) (items : List Json) : List (String × Json) :=
  if items.isEmpty then [] else [(name, .array items)]

/-- A term as a value. -/
def TermSummary.toJson (t : TermSummary) : Json :=
  Json.ofFields ([("term", .ofString (escapeBytes t.term)),
      ("document_frequency", .ofNat t.statistics.documentFrequency.toNat),
      ("frequency", .ofNat t.statistics.frequency.toNat)] ++
    listField "field_frequencies" (t.statistics.fieldFrequencies.map fun f => .ofNat f.toNat) ++
    listField "postings" (t.postings.map Posting.toJson))

/-- A run as a value. -/
def runSummary (header : RunHeader) (size : Nat) (terms : List TermSummary) : Json :=
  Json.ofFields ([("run_index", .ofNat header.runIndex.toNat),
      ("field_count", .ofNat header.layout.fieldCount.toNat),
      ("blocks", .bool header.layout.blocks),
      ("term_count", .ofNat header.termCount.toNat),
      ("first_doc", .ofNat header.firstDoc.toNat),
      ("last_doc", .ofNat header.lastDoc.toNat),
      ("posting_count", .ofNat header.postingCount.toNat),
      ("file_size", .ofString (formatSize size))] ++
    listField "terms" (terms.map TermSummary.toJson))

/-- All postings of the entry on which a cursor stands. -/
def entryPostings : Attempt Error StoredCursor (List Posting) := fun cursor =>
  let (result, lease) := PostingSource.collect (Lease.openPostings ⟨0, cursor⟩)
  (result, lease.cursor)

theorem entriesLeft_entryPostings (cursor : StoredCursor) :
    RunCursor.entriesLeft (entryPostings cursor).2 = RunCursor.entriesLeft cursor :=
  PostingSource.collect_source
    (P := fun lease : Lease StoredCursor =>
      RunCursor.entriesLeft lease.cursor = RunCursor.entriesLeft cursor)
    (fun lease h => (RunCursor.entriesLeft_nextPosting lease.cursor).trans h) _
    (RunCursor.entriesLeft_openPostings cursor)

/-- The next term that a cursor comes to, with its postings when they are asked for. -/
def nextTerm (postings : Bool) : Attempt Error StoredCursor TermSummary := fun cursor =>
  match RunCursor.advance cursor with
  | (.error e, cursor) => (.error e, cursor)
  | (.ok (), cursor) =>
    let (given, asked) := if postings then entryPostings cursor else (.ok [], cursor)
    (given.map fun given => ⟨cursor.term, cursor.statistics, given⟩, asked)

theorem entriesLeft_nextTerm {postings : Bool} {cursor cursor' : StoredCursor} {t : TermSummary}
    (h : nextTerm postings cursor = (.ok t, cursor')) :
    RunCursor.entriesLeft cursor' < RunCursor.entriesLeft cursor := by
  unfold nextTerm at h
  split at h
  · cases h
  · rename_i advanced entered
    have fewer := RunCursor.entriesLeft_advance entered
    obtain ⟨-, rfl⟩ := Prod.mk.inj h
    cases postings with
    | false => exact fewer
    | true => exact (entriesLeft_entryPostings advanced).symm ▸ fewer

/-- The terms that a cursor comes to, behind those that are done. -/
def remainingTerms (postings : Bool) (cursor : StoredCursor) (done : Array TermSummary) :
    Except Error (List TermSummary) :=
  if cursor.hasNext then
    match _h : nextTerm postings cursor with
    | (.ok t, cursor') => remainingTerms postings cursor' (done.push t)
    | (.error e, _) => .error e
  else .ok done.toList
termination_by RunCursor.entriesLeft cursor
decreasing_by exact entriesLeft_nextTerm _h

/-- Shows a run file. -/
def inspect (r : InspectRequest) (store : FileStore) : Outcome :=
  let summary := do
    requireFile store r.path
    let cursor ← (RunFiles.openFile store r.path).mapError
      (.ofError s!"Failed to open run {r.path}")
    let terms ← if r.terms || r.postings then
        (remainingTerms r.postings cursor #[]).mapError fun e => ⟨[], .error e⟩
      else pure []
    let size := ((store.read? r.path).map Array.size).getD 0
    return (runSummary cursor.header size terms).pretty
  match summary with
  | .ok text => .printed [text] store
  | .error f => .failed f store

end IndexMerge.Command
