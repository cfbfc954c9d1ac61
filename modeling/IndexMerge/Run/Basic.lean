import IndexMerge.Posting.Layout
import IndexMerge.Statistics

/-!
# Runs

A run is a sorted batch of an index: terms in ascending order, each with a list of postings over
ascending documents. `Run.offer` is the only way in, so every run that is built from the empty one
keeps these rules.
-/

namespace IndexMerge

/-- A term of a run with its postings and their statistics. -/
structure RunEntry where
  term : Term
  statistics : TermStatistics
  postings : List Posting
  deriving DecidableEq, Repr, Inhabited

/-- A run: its number in the order of creation, the layout of its postings, and its entries. -/
structure Run where
  index : Nat
  layout : Layout
  entries : Array RunEntry
  deriving DecidableEq, Repr, Inhabited

namespace Run

/-- A run without entries. -/
def empty (index : Nat) (layout : Layout) : Run := ⟨index, layout, #[]⟩

/-- Refuses a term that may not come next. -/
def checkTerm (run : Run) (term : Term) : Except Error Unit :=
  if Term.maxLength < term.length then .error (.argument (.termTooLong term.length))
  else match run.entries.back? with
    | some last =>
      if last.term.precedes term then .ok () else .error (.argument (.termOrder term last.term))
    | none => .ok ()

/-- Refuses postings that no entry may have. -/
def checkPostings (run : Run) (term : Term) (postings : List Posting) : Except Error Unit := do
  if postings.isEmpty then throw (.argument .noPostings)
  postings.forM run.layout.check
  if !isAscending (postings.map Posting.docId) then throw (.argument (.documentOrder term))

/-- Adds an entry behind the others in place, if it may come next. -/
def offer (term : Term) (postings : List Posting) : Attempt Error Run Unit := do
  let run ← get
  MonadExcept.ofExcept (run.checkTerm term)
  MonadExcept.ofExcept (run.checkPostings term postings)
  let statistics := TermStatistics.ofPostings run.layout postings
  modify fun run => { run with entries := run.entries.push ⟨term, statistics, postings⟩ }

/-- The run with an entry behind the others. -/
def push (run : Run) (term : Term) (postings : List Posting) : Except Error Run :=
  (offer term postings).outcome run

/-- The run with the given entries, up to the first that is refused. -/
def ofTerms (index : Nat) (layout : Layout) (terms : List (Term × List Posting)) :
    Except Error Run :=
  terms.foldlM (fun run (term, postings) => run.push term postings) (empty index layout)

/-- The least and the greatest document, if there are entries. -/
def docRange (run : Run) : Option (UInt32 × UInt32) :=
  let entries := run.entries.toList
  match (entries.filterMap (·.postings.head?)).map (·.docId),
      (entries.filterMap (·.postings.getLast?)).map (·.docId) with
  | first :: firsts, last :: lasts =>
    some (firsts.foldl min first, lasts.foldl max last)
  | _, _ => none

/-- The number of postings of all entries. -/
def postingCount (run : Run) : Nat :=
  run.entries.foldl (fun count e => count + e.postings.length) 0

end Run

end IndexMerge
