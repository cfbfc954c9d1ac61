import IndexMerge.Proofs.Merge.Memory
import IndexMerge.Proofs.Run.Spill

/-!
# Stored runs and runs in memory

A cursor over the bytes that a run was stored as cannot be told from one over the run in memory, as
long as the postings of an entry are begun once (`OncePerEntry`): the one cursor mirrors the other
(`Mirrors`), whichever postings were asked for, and each use has the same answer for both
(`Mirrors.answer`). So a whole sequence of uses has (`refines_spill`). Begun again, the postings
come from the first one in memory, but go on where they stopped in stored bytes. The source of a
stored cursor is just the bytes ahead of it, so no answer depends on the buffer they are fetched
through.
-/

namespace IndexMerge

/-- A use of a cursor: something is asked of it, it is advanced, or the postings of its entry are
begun and asked for a number of times. -/
inductive CursorUse where
  | runIndex
  | term
  | statistics
  | hasNext
  | advance
  | pull (count : Nat)
  deriving DecidableEq, Repr

/-- What a cursor answers to a use. -/
inductive CursorAnswer where
  | runIndex (index : Nat)
  | term (term : Term)
  | statistics (statistics : TermStatistics)
  | hasNext (hasNext : Bool)
  | advance (result : Except Error Unit)
  | pull (results : List (Except Error (Option Posting)))

/-- The postings of an entry are begun at most once, where so many entries are ahead and those of
the current one may have been begun. An advance past the end stays on the entry. -/
def OncePerEntry : Nat → Bool → List CursorUse → Prop
  | _, _, [] => True
  | ahead, begun, .advance :: uses => OncePerEntry (ahead - 1) (begun && ahead == 0) uses
  | ahead, begun, .pull _ :: uses => begun = false ∧ OncePerEntry ahead true uses
  | ahead, begun, .runIndex :: uses | ahead, begun, .term :: uses
  | ahead, begun, .statistics :: uses | ahead, begun, .hasNext :: uses =>
    OncePerEntry ahead begun uses

namespace RunCursor

variable {C : Type} [RunCursor C]

/-- What comes when the next posting is asked for so many times. -/
def pull : Nat → C → List (Except Error (Option Posting)) × C
  | 0, c => ([], c)
  | count + 1, c =>
    let (result, c) := nextPosting c
    let (results, c) := pull count c
    (result :: results, c)

/-- The answer to a use. -/
def answer (c : C) : CursorUse → CursorAnswer × C
  | .runIndex => (.runIndex (runIndex c), c)
  | .term => (.term (term c), c)
  | .statistics => (.statistics (statistics c), c)
  | .hasNext => (.hasNext (hasNext c), c)
  | .advance =>
    let (result, c) := advance c
    (.advance result, c)
  | .pull count =>
    let (results, c) := pull count (openPostings c)
    (.pull results, c)

/-- The answers to a sequence of uses. -/
def answers : List CursorUse → C → List CursorAnswer × C
  | [], c => ([], c)
  | use :: uses, c =>
    let (first, c) := answer c use
    let (others, c) := answers uses c
    (first :: others, c)

/-- A cursor can be closed. From then on it goes nowhere, but shows what it showed before. -/
structure Closes (c : C) : Prop where
  close_eq : (close c).1 = .ok ()
  hasNext_eq : hasNext (close c).2 = false
  advance_eq : advance (close c).2 = (.error (.operation .advanceClosed), (close c).2)
  term_eq : term (close c).2 = term c
  statistics_eq : statistics (close c).2 = statistics c

end RunCursor

open RunCursor

theorem closes_stored (c : StoredCursor) : Closes c := ⟨rfl, rfl, rfl, rfl, rfl⟩

theorem closes_memory (c : MemoryCursor) : Closes c := ⟨rfl, rfl, rfl, rfl, rfl⟩

/-- Pulling postings in memory passes over as many. -/
theorem MemoryCursor.pull_snd (count : Nat) (m : MemoryCursor) :
    (pull count m).2 = { m with postings := m.postings.drop count } := by
  induction count generalizing m with
  | zero => rfl
  | succ count ih =>
    obtain ⟨index, current, ahead, postings, isClosed⟩ := m
    cases postings with
    | nil =>
      refine (ih ⟨index, current, ahead, [], isClosed⟩).trans ?_
      rw [List.drop_nil, List.drop_nil]
    | cons p postings => exact ih ⟨index, current, ahead, postings, isClosed⟩

/-- An advance leaves one entry less ahead, if there are any. -/
theorem MemoryCursor.length_ahead_advance {m : MemoryCursor} (isOpen : m.isClosed = false) :
    (advance m).2.ahead.length = m.ahead.length - 1 := by
  obtain ⟨index, current, ahead, postings, isClosed⟩ := m
  obtain rfl : isClosed = false := isOpen
  cases ahead <;> rfl

namespace StoredCursor

/-- The cursor over stored bytes stands where the one in memory does. If the postings of the entry
were begun, both have the same ones ahead; if not, all of them are ahead. -/
structure Mirrors (begun : Bool) (c : StoredCursor) (m : MemoryCursor) : Prop where
  isOpen : m.isClosed = false
  index_eq : c.runIndex = m.index
  term_eq : c.term = m.term
  statistics_eq : c.statistics = m.statistics
  before : c.Before (if begun then m.postings else m.openPostings.postings) m.ahead none
  current : ∀ e, m.current = some e → e.Storable c.header
  ahead : ∀ e ∈ m.ahead, e.Storable c.header

variable {begun : Bool} {c : StoredCursor} {m : MemoryCursor}

/-- Pulling postings gives what it gives in memory, and passes over the bytes of as many. -/
theorem pull_eq (count : Nat) {entries : List RunEntry} (before : c.Before m.postings entries none)
    (storable : ∀ p ∈ m.postings, p.Storable c.header)
    (ascending : isAscendingAfter c.lastDoc (m.postings.map Posting.docId) = true) :
    ∃ last, pull count c =
      ((pull count m).1, c.beforePostings (m.postings.drop count) entries none last) := by
  induction count generalizing c m with
  | zero =>
    refine ⟨c.lastDoc, ?_⟩
    rw [List.drop_zero, before.beforePostings_eq]
    rfl
  | succ count ih =>
    obtain ⟨index, current, ahead, postings, isClosed⟩ := m
    cases postings with
    | nil =>
      have asked : RunCursor.nextPosting c = (.ok none, c) := nextPosting_of_ended before
      obtain ⟨last, rest⟩ := @ih c ⟨index, current, ahead, [], isClosed⟩ before storable ascending
      refine ⟨last, ?_⟩
      rw [List.drop_nil] at rest ⊢
      rw [pull, asked]
      dsimp only
      rw [rest]
      rfl
    | cons p postings =>
      have ⟨follows, ascending⟩ := isAscendingAfter_cons.mp ascending
      have asked : RunCursor.nextPosting c =
          (.ok (some p), c.beforePostings postings entries none (some p.docId)) :=
        nextPosting_of_before before (storable p (List.mem_cons_self ..)) follows
      obtain ⟨last, rest⟩ := @ih _ ⟨index, current, ahead, postings, isClosed⟩
        (before.beforePostings postings (some p.docId))
        (fun q member => storable q (List.mem_cons_of_mem _ member)) ascending
      refine ⟨last, ?_⟩
      rw [pull, asked]
      dsimp only
      rw [rest]
      rfl

namespace Mirrors

theorem hasNext_eq (mirrors : Mirrors begun c m) : c.hasNext = m.hasNext := by
  unfold StoredCursor.hasNext MemoryCursor.hasNext
  rw [mirrors.before.source_eq, mirrors.before.remaining_eq, mirrors.isOpen]
  cases m.ahead <;> rfl

/-- An advance has the same result for both cursors, also behind the last entry. -/
theorem advance (mirrors : Mirrors begun c m) :
    (StoredCursor.advance c).1 = (MemoryCursor.advance m).1 ∧
      Mirrors (begun && m.ahead.length == 0) (StoredCursor.advance c).2
        (MemoryCursor.advance m).2 := by
  obtain ⟨index, current, ahead, postings, isClosed⟩ := m
  obtain rfl : isClosed = false := mirrors.isOpen
  cases ahead with
  | nil =>
    have ended : StoredCursor.advance c = (.error (.operation (.advancePastEnd index)), c) := by
      have index_eq : c.runIndex = index := mirrors.index_eq
      unfold StoredCursor.advance
      rw [mirrors.before.source_eq, mirrors.before.remaining_eq, index_eq]
      rfl
    rw [ended]
    refine ⟨rfl, ?_⟩
    show Mirrors (begun && true) c ⟨index, current, [], postings, false⟩
    rw [Bool.and_true]
    exact mirrors
  | cons e ahead =>
    have first := mirrors.ahead e (List.mem_cons_self ..)
    rw [advance_of_before mirrors.before first]
    refine ⟨rfl, ?_⟩
    show Mirrors (begun && false) (c.onEntry e ahead none) ⟨index, some e, ahead, [], false⟩
    rw [Bool.and_false]
    refine ⟨rfl, mirrors.index_eq, rfl, rfl, mirrors.before.onEntry, ?_, ?_⟩
    · intro other here
      obtain rfl := Option.some.inj here
      exact first
    · exact fun other member => mirrors.ahead other (List.mem_cons_of_mem _ member)

/-- Postings that were not begun yet are the same for both cursors. -/
theorem pull (mirrors : Mirrors false c m) (count : Nat) :
    (RunCursor.pull count c.openPostings).1 = (RunCursor.pull count m.openPostings).1 ∧
      Mirrors true (RunCursor.pull count c.openPostings).2
        (RunCursor.pull count m.openPostings).2 := by
  have sound : (∀ p ∈ m.openPostings.postings, p.Storable c.header) ∧
      isAscending (m.openPostings.postings.map Posting.docId) = true := by
    show (∀ p ∈ (m.current.map RunEntry.postings).getD [], p.Storable c.header) ∧
      isAscending (((m.current.map RunEntry.postings).getD []).map Posting.docId) = true
    cases here : m.current with
    | none => simp [isAscending]
    | some e => exact ⟨(mirrors.current e here).postings, (mirrors.current e here).sound.ascending⟩
  have before : c.openPostings.Before m.openPostings.postings m.ahead none :=
    mirrors.before.openPostings
  obtain ⟨last, same⟩ := pull_eq count before sound.1 sound.2
  rw [same, MemoryCursor.pull_snd]
  exact ⟨rfl, mirrors.isOpen, mirrors.index_eq, mirrors.term_eq, mirrors.statistics_eq,
    before.beforePostings _ last, mirrors.current, mirrors.ahead⟩

end Mirrors

/-- A use has the same answer for both cursors, and they still mirror one another. -/
theorem Mirrors.answer {use : CursorUse} {uses : List CursorUse} (mirrors : Mirrors begun c m)
    (once : OncePerEntry m.ahead.length begun (use :: uses)) :
    (RunCursor.answer c use).1 = (RunCursor.answer m use).1 ∧
      ∃ begun, Mirrors begun (RunCursor.answer c use).2 (RunCursor.answer m use).2 ∧
        OncePerEntry (RunCursor.answer m use).2.ahead.length begun uses := by
  cases use with
  | runIndex => exact ⟨congrArg CursorAnswer.runIndex mirrors.index_eq, begun, mirrors, once⟩
  | term => exact ⟨congrArg CursorAnswer.term mirrors.term_eq, begun, mirrors, once⟩
  | statistics =>
    exact ⟨congrArg CursorAnswer.statistics mirrors.statistics_eq, begun, mirrors, once⟩
  | hasNext => exact ⟨congrArg CursorAnswer.hasNext mirrors.hasNext_eq, begun, mirrors, once⟩
  | advance =>
    have ⟨same, still⟩ := mirrors.advance
    refine ⟨congrArg CursorAnswer.advance same, _, still, ?_⟩
    show OncePerEntry (MemoryCursor.advance m).2.ahead.length _ uses
    rw [MemoryCursor.length_ahead_advance mirrors.isOpen]
    exact once
  | pull count =>
    obtain ⟨rfl, once⟩ := once
    have ⟨same, still⟩ := mirrors.pull count
    refine ⟨congrArg CursorAnswer.pull same, _, still, ?_⟩
    show OncePerEntry (RunCursor.pull count m.openPostings).2.ahead.length true uses
    rw [MemoryCursor.pull_snd]
    exact once

/-- Cursors that mirror one another have the same answers to a whole sequence of uses. -/
theorem Mirrors.answers {uses : List CursorUse} (mirrors : Mirrors begun c m)
    (once : OncePerEntry m.ahead.length begun uses) :
    (RunCursor.answers uses c).1 = (RunCursor.answers uses m).1 ∧
      ∃ begun, Mirrors begun (RunCursor.answers uses c).2 (RunCursor.answers uses m).2 := by
  induction uses generalizing begun c m with
  | nil => exact ⟨rfl, begun, mirrors⟩
  | cons use uses ih =>
    obtain ⟨first, _, still, once⟩ := mirrors.answer once
    have ⟨others, last⟩ := ih still once
    exact ⟨List.cons_eq_cons.mpr ⟨first, others⟩, last⟩

end StoredCursor

namespace Run

variable {W : Type} [ByteSink W] [FaithfulSink W] {index : Nat} {layout : Layout} {run : Run}

/-- At its start, a cursor over what a run was stored as mirrors one over the run. -/
theorem mirrors_start {header : RunHeader} (spillable : run.Spillable index layout)
    (describes : Describes header index run) (name : String) :
    StoredCursor.Mirrors false (storedStart name header run) (.start run) := by
  have storable := spillable.storable describes
  refine ⟨rfl, ?_, rfl, rfl, before_storedStart describes name spillable.sound, ?_, storable⟩
  · exact describes.index_eq.trans spillable.sound.index_eq.symm
  · intro e none
    cases none

/-- A run was built by adding entries, and could be stored. Its postings and their blocks can be
counted by words of 32 bits, and the bytes of an entry by words of 64. Then a cursor over the stored
bytes can be started. To all uses of which none begins the postings of an entry again it has the
same answers as the cursor over the run. When both are closed after that, they go nowhere any more
and still show the same entry. -/
theorem refines_spill (built : run.Built index layout) {sink sink' : W}
    (empty : FaithfulSink.content sink = []) (spilled : run.spill sink = (.ok (), sink'))
    (counts : ∀ e ∈ run.entries.toList, e.postings.length < UInt32.size)
    (blocks : ∀ e ∈ run.entries.toList, ∀ p ∈ e.postings, p.blocks.length < UInt32.size)
    (sizes : ∀ e ∈ run.entries.toList,
      (e.postings.flatMap (Posting.encode layout)).length < UInt64.size) (name : String) :
    ∃ cursor, StoredCursor.start name (.ofList (FaithfulSink.content sink')) = .ok cursor ∧
      ∀ uses, OncePerEntry run.entries.size false uses →
        let (stored, c) := answers uses cursor
        let (kept, m) := answers uses (MemoryCursor.start run)
        stored = kept ∧ Closes c ∧ Closes m ∧ c.term = m.term ∧ c.statistics = m.statistics := by
  obtain ⟨header, made, content⟩ := content_spill spilled
  have ⟨short, few, _⟩ := words_of_header made
  have sound := built.sound
  rw [sound.index_eq] at short
  have spillable : run.Spillable index layout := ⟨sound, short, few, counts, blocks, sizes⟩
  obtain ⟨_, made', describes⟩ := header_eq_ok sound short few
  rw [made] at made'
  cases made'
  rw [content, empty, List.nil_append]
  refine ⟨_, start_storedBytes describes name, fun uses once => ?_⟩
  have once : OncePerEntry (MemoryCursor.start run).ahead.length false uses := once
  have ⟨same, begun, mirrors⟩ := (mirrors_start spillable describes name).answers once
  exact ⟨same, closes_stored _, closes_memory _, mirrors.term_eq, mirrors.statistics_eq⟩

/-- Before the first entry, on it and on the last one postings are asked for: none, one of two, and
more than there are. -/
def partialUses : List CursorUse :=
  [.pull 1, .advance, .pull 1, .advance, .term, .pull 2, .advance, .hasNext]

/-- The posting that was not asked for is passed over, and the last entry is not left. -/
theorem refines_spill_overlapping :
    let bytes := (overlappingRuns[0].spill (#[] : Array UInt8)).2.toList
    ∃ cursor, StoredCursor.start "a" (.ofList bytes) = .ok cursor ∧
      (answers partialUses cursor).1 =
        [.pull [.ok none], .advance (.ok ()), .pull [.ok (some ⟨1, 1, [], []⟩)],
          .advance (.ok ()), .term [97, 98], .pull [.ok (some ⟨2, 1, [], []⟩), .ok none],
          .advance (.error (.operation (.advancePastEnd 0))), .hasNext false] := by
  have made : overlappingRuns[0].header = .ok ⟨0, ⟨0, false⟩, 2, 1, 5, 3⟩ := rfl
  obtain ⟨file, spilled, -⟩ := spill_eq_ok fresh_array made
  rw [spilled]
  obtain ⟨cursor, started, alike⟩ := refines_spill (built_overlappingRuns 0 (by decide)) rfl spilled
    (by decide) (by decide) (by decide) "a"
  have once : OncePerEntry overlappingRuns[0].entries.size false partialUses :=
    ⟨rfl, rfl, rfl, trivial⟩
  exact ⟨cursor, started, (alike partialUses once).1⟩

end Run

end IndexMerge
