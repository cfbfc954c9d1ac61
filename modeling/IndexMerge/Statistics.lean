import IndexMerge.Attempt
import IndexMerge.Error
import IndexMerge.Bits.Position

/-!
# Term statistics

How often a term occurs in a collection of documents, and where its posting list is stored. The
statistics of runs over different documents add up to those of their union.
-/

namespace IndexMerge

/-- The statistics of a term. Identifier and pointer are given when the term is written out. -/
structure TermStatistics where
  documentFrequency : UInt32
  frequency : UInt64
  fieldFrequencies : List UInt64
  termId : Option UInt32
  pointer : Option BitPosition
  deriving DecidableEq, Repr, Inhabited

namespace TermStatistics

/-- The statistics of a term without occurrences. -/
def empty : TermStatistics := ⟨0, 0, [], none, none⟩

/-- Adds a posting's frequencies to totals by field. A field for which the posting has no
frequency stays as it is. -/
def addFields (totals : List UInt64) (frequencies : List UInt32) : List UInt64 :=
  let filled := frequencies.map UInt32.toUInt64 ++
    List.replicate (totals.length - frequencies.length) 0
  List.zipWith (· + ·) totals filled

/-- The statistics that a list of postings has. -/
def ofPostings (layout : Layout) (postings : List Posting) : TermStatistics where
  documentFrequency := UInt32.ofNat postings.length
  frequency := postings.foldl (fun sum p => sum + p.frequency.toUInt64) 0
  fieldFrequencies := postings.foldl (fun totals p => addFields totals p.fieldFrequencies)
    (List.replicate layout.fieldCount.toNat 0)
  termId := none
  pointer := none

/-- Adds the statistics of other documents in place, one count after another. Identifier and pointer
stay. -/
def absorb (theirs : TermStatistics) : Attempt Error TermStatistics Unit := do
  let mine ← get
  if mine.fieldFrequencies.length ≠ theirs.fieldFrequencies.length then
    throw (.violation
      (.fieldCounts mine.fieldFrequencies.length theirs.fieldFrequencies.length))
  if UInt32.size ≤ mine.documentFrequency.toNat + theirs.documentFrequency.toNat then
    throw (.violation .documentFrequencyOverflow)
  modify fun s => { s with documentFrequency := s.documentFrequency + theirs.documentFrequency }
  modify fun s => { s with frequency := s.frequency + theirs.frequency }
  modify fun s => { s with
    fieldFrequencies := List.zipWith (· + ·) s.fieldFrequencies theirs.fieldFrequencies }

/-- The sum with the statistics of other documents. -/
def combine (mine theirs : TermStatistics) : Except Error TermStatistics :=
  (absorb theirs).outcome mine

theorem combine_eq (mine theirs : TermStatistics) : mine.combine theirs =
    if mine.fieldFrequencies.length ≠ theirs.fieldFrequencies.length then
      .error (.violation
        (.fieldCounts mine.fieldFrequencies.length theirs.fieldFrequencies.length))
    else if UInt32.size ≤ mine.documentFrequency.toNat + theirs.documentFrequency.toNat then
      .error (.violation .documentFrequencyOverflow)
    else .ok { mine with
      documentFrequency := mine.documentFrequency + theirs.documentFrequency
      frequency := mine.frequency + theirs.frequency
      fieldFrequencies :=
        List.zipWith (· + ·) mine.fieldFrequencies theirs.fieldFrequencies } := by
  unfold combine Attempt.outcome absorb
  by_cases same : mine.fieldFrequencies.length = theirs.fieldFrequencies.length
  · by_cases excess :
        UInt32.size ≤ mine.documentFrequency.toNat + theirs.documentFrequency.toNat
    · simp [Attempt.bind_apply, same, excess]
    · simp [Attempt.bind_apply, same, excess]
  · simp [Attempt.bind_apply, same]

/-- The statistics without identifier and pointer. -/
def detached (s : TermStatistics) : TermStatistics := { s with termId := none, pointer := none }

end TermStatistics

end IndexMerge
