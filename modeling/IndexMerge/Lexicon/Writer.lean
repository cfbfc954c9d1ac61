import IndexMerge.Bytes.Sink
import IndexMerge.Lexicon.Record

/-!
# Writing a lexicon

Entries come in the order of their terms, numbered from zero. They are staged and delivered when
the staged bytes reach the writer's capacity. A delivery that fails keeps the bytes staged, and
the entry that asked for it counts.
-/

namespace IndexMerge

/-- A writer of a lexicon over a sink. -/
structure LexiconWriter (W : Type) where
  sink : W
  /-- Bytes that are not delivered yet. -/
  staged : Array UInt8
  /-- The number of staged bytes that asks for a delivery. -/
  capacity : Nat
  fieldCount : UInt16
  /-- The last term written. -/
  last : Option Term
  /-- The number of entries. -/
  count : Nat
  isFinished : Bool

namespace LexiconWriter

variable {W : Type}

/-- A writer without entries; the header is staged. -/
def start (capacity : Nat) (sink : W) (layout : Layout) : LexiconWriter W where
  sink := sink
  staged := (LexiconFormat.header layout).toArray
  capacity := max capacity 1
  fieldCount := layout.fieldCount
  last := none
  count := 0
  isFinished := false

/-- Refuses an entry that may not come next; otherwise gives its identifier and pointer. -/
def check (w : LexiconWriter W) (term : Term) (s : TermStatistics) :
    Except Error (UInt32 × BitPosition) :=
  if w.isFinished then .error (.operation .writeFinishedLexicon)
  else if Term.maxLength < term.length then .error (.argument (.termTooLong term.length))
  else if s.fieldFrequencies.length ≠ w.fieldCount.toNat then
    .error (.argument (.statisticsFields s.fieldFrequencies.length w.fieldCount))
  else match s.termId, s.pointer with
    | some id, some pointer =>
      match w.last.filter (fun last => !last.precedes term) with
      | some last => .error (.violation (.lexiconOrder term last))
      | none =>
        if id.toNat ≠ w.count then .error (.violation (.termIdSequence id term w.count))
        else .ok (id, pointer)
    | _, _ => .error (.argument (.unplacedTerm term))

variable [ByteSink W]

/-- Delivers the staged bytes. -/
def flush : Attempt Error (LexiconWriter W) Unit := fun w =>
  match ByteSink.write w.staged w.sink with
  | (.ok (), sink) => (.ok (), { w with sink, staged := #[] })
  | (.error fault, sink) => (.error (.io "writing lexicon" fault), { w with sink })

/-- Writes an entry. -/
def add (e : LexiconEntry) : Attempt Error (LexiconWriter W) Unit := fun w =>
  match w.check e.term e.statistics with
  | .error error => (.error error, w)
  | .ok (id, pointer) =>
    let w := { w with
      staged := w.staged ++ LexiconFormat.entry e.term e.statistics id pointer
      last := some e.term
      count := w.count + 1 }
    if w.capacity ≤ w.staged.size then flush w else (.ok (), w)

/-- Writes the trailer, delivers everything and finishes the sink. Gives the number of entries. -/
def finish : Attempt Error (LexiconWriter W) Nat := fun w =>
  if w.isFinished then (.error (.operation .finishFinishedLexicon), w)
  else
    match flush { w with
        isFinished := true, staged := w.staged ++ LexiconFormat.trailer w.count } with
    | (.error e, w) => (.error e, w)
    | (.ok (), w) =>
      match ByteSink.finish w.sink with
      | (.ok (), sink) => (.ok w.count, { w with sink })
      | (.error fault, sink) => (.error (.io "sealing lexicon" fault), { w with sink })

instance : Dictionary (LexiconWriter W) := ⟨add⟩

end LexiconWriter

end IndexMerge
