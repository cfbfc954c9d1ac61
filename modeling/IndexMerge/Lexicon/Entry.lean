import IndexMerge.Attempt
import IndexMerge.Statistics

/-!
# Lexicon entries

A term with its statistics, and the places where the entries of a finished merge go.
-/

namespace IndexMerge

/-- A term of an index. -/
structure LexiconEntry where
  term : Term
  statistics : TermStatistics
  deriving DecidableEq, Repr, Inhabited

/-- The term as text. -/
def LexiconEntry.text (e : LexiconEntry) : String := Utf8.lossy e.term

/-- Something that takes lexicon entries. -/
class Dictionary (D : Type) where
  /-- Takes an entry. -/
  add : LexiconEntry → Attempt Error D Unit

/-- A list of entries takes any. -/
instance : Dictionary (Array LexiconEntry) where
  add e := fun entries => (.ok (), entries.push e)

end IndexMerge
