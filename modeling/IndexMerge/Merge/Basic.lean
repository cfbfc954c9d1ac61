import IndexMerge.Merge.Schedule
import IndexMerge.InvertedFile.Sink
import IndexMerge.Lexicon.Entry
import IndexMerge.Posting.Sequence
import IndexMerge.Posting.Counted
import IndexMerge.Total

/-!
# Merging runs

A merge takes the least term of its schedule, stores the postings of all cursors that stand on it
as one list, enters the term into a dictionary and brings the cursors back. Terms are numbered in
this order. A step that fails gives up all cursors, and the merge goes no further.
-/

namespace IndexMerge

/-- The numbers of terms and of postings that were written. -/
structure Progress where
  terms : Nat
  postings : Nat
  deriving DecidableEq, Repr, Inhabited

/-- A term that was written: its number, the runs that hold it and its statistics. -/
structure MergedTerm where
  term : Term
  termId : UInt32
  runs : List Nat
  statistics : TermStatistics
  deriving DecidableEq, Repr, Inhabited

/-- A merge of runs into a sink of posting lists. -/
structure Merge (C S : Type) [RunCursor C] where
  schedule : Schedule C
  sink : S
  progress : Progress
  /-- The number of terms after which progress is told, or zero. -/
  interval : Nat
  /-- Whether a step failed or the merge was given up. -/
  isPoisoned : Bool

namespace Merge

variable {F C S D : Type} [RunCursor C]

/-- Refuses cursors on one term whose runs do not ascend. -/
def checkOrder : List (Lease C) → Except Error Unit
  | a :: b :: rest =>
    if a.runIndex < b.runIndex then checkOrder (b :: rest)
    else .error (.violation (.groupOrder a.runIndex b.runIndex a.term))
  | _ => .ok ()

/-- The statistics of several cursors together. -/
def combineAll (first : Lease C) (rest : List (Lease C)) : Except Error TermStatistics :=
  rest.foldlM (fun sum lease => sum.combine (RunCursor.statistics lease.cursor))
    (RunCursor.statistics first.cursor).detached

/-- The number of postings that cursors announce. -/
def announced (leases : List (Lease C)) : Nat :=
  total (leases.map fun lease => (RunCursor.statistics lease.cursor).documentFrequency.toNat)

variable [PostingSink S]

/-- Stores the postings of cursors on one term as one list, which has to have as many postings as
the cursors announce. The cursors are given back as far as they were read. -/
def store (term : Term) (leases : List (Lease C)) (sink : S) :
    Except Error BitPosition × List (Lease C) × S :=
  let postings : CountedPostings (PostingSequence (Lease C)) :=
    ⟨.ofList (leases.map Lease.openPostings), 0⟩
  match PostingSink.write postings sink with
  | (.error e, postings, sink) => (.error e, postings.inner.sources, sink)
  | (.ok pointer, postings, sink) =>
    if postings.count = announced leases then (.ok pointer, postings.inner.sources, sink)
    else
      (.error (.violation (.postingCount term postings.count (announced leases))),
        postings.inner.sources, sink)

/-- Whether all terms were written. -/
def isDone (m : Merge C S) : Bool := !m.isPoisoned && m.schedule.isEmpty

/-- Where the next list will begin. -/
def position (m : Merge C S) : BitPosition := PostingSink.position m.sink

/-- Writes down what was told. -/
def tell (m : Merge C S) (notice : Notice) : Merge C S :=
  { m with schedule := m.schedule.tell notice }

/-- Counts a term that was written, and tells about it. -/
def count (m : Merge C S) (merged : MergedTerm) (pointer : BitPosition) (postings : Nat) :
    Merge C S :=
  let progress := ⟨m.progress.terms + 1, m.progress.postings + postings⟩
  let m := { m with progress }.tell
    (.termMerged merged.termId merged.term merged.runs merged.statistics.documentFrequency pointer)
  if m.interval ≠ 0 ∧ progress.terms % m.interval = 0 then
    m.tell (.progress progress.terms progress.postings (m.schedule.size + merged.runs.length))
  else m

/-- Gives up the cursors of a group because of a failure. -/
def fail (e : Error) (leases : List (Lease C)) (m : Merge C S) (dictionary : D) :
    Except Error MergedTerm × Merge C S × D :=
  (.error e, { m with schedule := m.schedule.abandon leases }, dictionary)

/-- Enters a term whose list was stored into the dictionary and brings its cursors back. -/
def enter [Dictionary D] (term : Term) (runs : List Nat) (statistics : TermStatistics)
    (pointer : BitPosition) (postings : Nat) (leases : List (Lease C)) (m : Merge C S)
    (dictionary : D) : Except Error MergedTerm × Merge C S × D :=
  if UInt32.size ≤ m.progress.terms then fail (.violation .termIdsExhausted) leases m dictionary
  else
    let termId := UInt32.ofNat m.progress.terms
    let statistics := { statistics with termId := some termId, pointer := some pointer }
    match Dictionary.add ⟨term, statistics⟩ dictionary with
    | (.error e, dictionary) => fail e leases m dictionary
    | (.ok (), dictionary) =>
      let merged : MergedTerm := { term, termId, runs, statistics }
      let m := m.count merged pointer postings
      match Schedule.requeueAll leases m.schedule with
      | (.ok (), schedule) => (.ok merged, { m with schedule }, dictionary)
      | (.error e, schedule) => (.error e, { m with schedule }, dictionary)

/-- Writes the term on which a group of cursors stands. -/
def writeGroup [Dictionary D] (first : Lease C) (rest : List (Lease C)) (m : Merge C S)
    (dictionary : D) : Except Error MergedTerm × Merge C S × D :=
  let leases := first :: rest
  match checkOrder leases with
  | .error e => fail e leases m dictionary
  | .ok () =>
    match combineAll first rest with
    | .error e => fail e leases m dictionary
    | .ok statistics =>
      match store first.term leases m.sink with
      | (.error e, leases, sink) => fail e leases { m with sink } dictionary
      | (.ok pointer, stored, sink) =>
        enter first.term (leases.map Lease.runIndex) statistics pointer (announced leases) stored
          { m with sink } dictionary

/-- Writes the least term. -/
def step [Dictionary D] (m : Merge C S) (dictionary : D) :
    Except Error MergedTerm × Merge C S × D :=
  if m.isPoisoned then (.error (.operation .mergeAfterFailure), m, dictionary)
  else match m.schedule.popGroup with
    | none => (.error (.violation .mergeComplete), m, dictionary)
    | some (first, rest, schedule) =>
      match writeGroup first rest { m with schedule } dictionary with
      | (.ok merged, m, dictionary) => (.ok merged, m, dictionary)
      | (.error e, m, dictionary) =>
        match Schedule.releaseAll m.schedule with
        | (.ok (), schedule) => (.error e, { m with schedule, isPoisoned := true }, dictionary)
        | (.error release, schedule) =>
          (.error e, { m with
            schedule := schedule.tell (.releaseFailedAfterMerge release), isPoisoned := true },
            dictionary)

/-- Opens the first `count` runs for a merge. If that fails, what was done with them is given
back all the same. -/
def start [RunOpener F C] (count : Nat) (opener : F) (sink : S) (interval : Nat) :
    Except Error Unit × F × Merge C S :=
  match Schedule.start count opener with
  | (.error e, opener, schedule) => (.error e, opener, ⟨schedule, sink, ⟨0, 0⟩, interval, true⟩)
  | (.ok (), opener, schedule) =>
    (.ok (), opener,
      ⟨schedule.tell (.mergeStarted count schedule.size), sink, ⟨0, 0⟩, interval, false⟩)

/-- Gives the merge up and releases all cursors. -/
def abort : Attempt Error (Merge C S) Unit := fun m =>
  let (result, schedule) := Schedule.releaseAll m.schedule
  (result, { m with schedule, isPoisoned := true })

/-- Drops the merge; its cursors are closed. -/
def drop (m : Merge C S) : Merge C S := { m with schedule := m.schedule.abandonAll }

/-- Releases the cursors that are left and, if that succeeds, closes the sink. -/
def finish : Attempt Error (Merge C S) Progress := fun m =>
  let (released, m) : Except Error Unit × Merge C S :=
    if m.schedule.isEmpty then (.ok (), m)
    else
      let m := m.tell (.mergeEndedEarly m.schedule.size)
      let (result, schedule) := Schedule.releaseAll m.schedule
      (result, { m with schedule })
  match released with
  | .error e => (.error e, m)
  | .ok () =>
    match PostingSink.close m.sink with
    | (.error e, sink) => (.error e, { m with sink })
    | (.ok (), sink) =>
      (.ok m.progress, { m with sink }.tell
        (.mergeFinished m.progress.terms m.progress.postings))

end Merge

end IndexMerge
