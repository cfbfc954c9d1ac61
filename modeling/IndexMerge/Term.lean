/-!
# Terms

A term is a byte string. Terms are ordered byte by byte, a proper beginning of a term coming
before it.
-/

namespace IndexMerge

/-- The bytes of an indexed term, which need not be readable text. -/
abbrev Term : Type := List UInt8

namespace Term

/-- The longest term that a run or a lexicon can hold. -/
def maxLength : Nat := 65535

/-- Whether `a` comes strictly before `b`. -/
def precedes (a b : Term) : Bool := (compare a b).isLT

end Term

/-- Terms first, then the runs that hold them: the order in which scheduled runs are consumed. -/
def compareRunKeys (termA : Term) (runA : Nat) (termB : Term) (runB : Nat) : Ordering :=
  (compare termA termB).then (compare runA runB)

end IndexMerge
