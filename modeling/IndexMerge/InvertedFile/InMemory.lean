import IndexMerge.InvertedFile.Sink

/-!
# Posting lists in memory

A sink that keeps its lists as they are. The place of a list is its number.
-/

namespace IndexMerge

/-- The lists stored so far. -/
structure ListSink where
  lists : Array (List Posting)
  isClosed : Bool
  deriving DecidableEq, Repr, Inhabited

namespace ListSink

/-- A sink without lists. -/
def empty : ListSink := ⟨#[], false⟩

/-- The number of lists as a place. -/
def position (s : ListSink) : BitPosition := ⟨s.lists.size, 0⟩

/-- The list that begins at a place. -/
def get? (s : ListSink) (p : BitPosition) : Option (List Posting) :=
  if p.bit = 0 then s.lists[p.byte]? else none

/-- Adds a posting to the list that is being stored. -/
def emit (_ : Option UInt32) (p : Posting) : Attempt Error (Array Posting) Unit :=
  fun stored => (.ok (), stored.push p)

/-- Stores a list; a list that fails is not stored. -/
def write {σ : Type} [PostingSource σ] (source : σ) (s : ListSink) :
    Except Error BitPosition × σ × ListSink :=
  if s.isClosed then (.error (.operation .writeClosedSink), source, s)
  else match drain emit none source #[] with
    | (.ok (), source, stored) =>
      (.ok s.position, source, { s with lists := s.lists.push stored.toList })
    | (.error e, source, _) => (.error e, source, s)

/-- No lists are stored after this. -/
def close : Attempt Error ListSink Unit := fun s => (.ok (), { s with isClosed := true })

instance : PostingSink ListSink where
  write := write
  position := position
  close := close
  write_source := by
    intro σ _ P step source sink h
    have kept := drain_source step emit none source #[] h
    unfold write
    split
    · exact h
    · split <;> rename_i drained <;> rwa [drained] at kept

end ListSink

end IndexMerge
