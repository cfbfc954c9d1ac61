/-!
# Postings

One document of a term's posting list, and the layout that says which optional parts the postings
of an index have.
-/

namespace IndexMerge

/-- An occurrence record of a term in one document: how often it occurs there, how often in each
field, and in which blocks. -/
structure Posting where
  docId : UInt32
  frequency : UInt32
  fieldFrequencies : List UInt32
  blocks : List UInt32
  deriving DecidableEq, Repr, Inhabited

/-- Which optional parts postings have: one frequency for each of `fieldCount` fields, and lists
of blocks. -/
structure Layout where
  fieldCount : UInt16
  blocks : Bool
  deriving DecidableEq, Repr, Inhabited

namespace Layout

/-- Whether postings count occurrences by field. -/
def hasFields (layout : Layout) : Bool := layout.fieldCount != 0

end Layout

end IndexMerge
