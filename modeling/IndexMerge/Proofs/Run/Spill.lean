import IndexMerge.Proofs.Bytes.Delivery
import IndexMerge.Proofs.Run.Range
import IndexMerge.Proofs.Run.Stored

/-!
# Storing runs

A run that can be stored is stored as its header and its entries one behind another, whatever chunks
it is delivered in (`content_spill`). It can be stored in a fresh sink if its numbers fit the format
(`spill_eq_ok`), and a cursor over these bytes stands before the entries of the run (`start_eq_ok`).
-/

namespace IndexMerge

open Attempt

namespace Run

variable {W : Type} [ByteSink W] [FaithfulSink W] {layout : Layout} {run : Run} {index : Nat}

/-- A run whose numbers fit the words of the format. -/
structure Spillable (index : Nat) (layout : Layout) (run : Run) : Prop where
  sound : run.Sound index layout
  index_lt : index < UInt32.size
  terms : run.entries.size < UInt32.size
  counts : ∀ e ∈ run.entries.toList, e.postings.length < UInt32.size
  blocks : ∀ e ∈ run.entries.toList, ∀ p ∈ e.postings, p.blocks.length < UInt32.size
  sizes : ∀ e ∈ run.entries.toList,
    (e.postings.flatMap (Posting.encode layout)).length < UInt64.size

/-- What the header of a stored run says of the run. -/
structure Describes (header : RunHeader) (index : Nat) (run : Run) : Prop where
  layout_eq : header.layout = run.layout
  index_eq : header.runIndex.toNat = index
  count_eq : header.termCount.toNat = run.entries.size
  range_eq : ∀ range, run.docRange = some range →
    header.firstDoc = range.1 ∧ header.lastDoc = range.2
  range_le : header.firstDoc ≤ header.lastDoc

theorem header_eq_ok (sound : run.Sound index layout) (short : index < UInt32.size)
    (few : run.entries.size < UInt32.size) :
    ∃ header, run.header = .ok header ∧ Describes header index run := by
  have same := sound.index_eq
  unfold Run.header
  rw [if_neg (by omega), if_neg (Nat.not_le_of_lt few)]
  refine ⟨_, rfl, rfl, ?_, ?_, ?_, ?_⟩
  · rw [UInt32.toNat_ofNat_of_lt' (by omega), same]
  · exact UInt32.toNat_ofNat_of_lt' few
  · intro range found
    simp [found]
  · cases entries : run.entries.toList with
    | nil => simp [docRange_nil entries]
    | cons e rest =>
      obtain ⟨range, found, le⟩ :=
        docRange_isSome sound.entries (by rw [entries]; exact List.mem_cons_self ..)
      simpa [found] using le

/-- A run with a header has a number and a count of terms that are words, and the header has its
layout. -/
theorem words_of_header {header : RunHeader} (made : run.header = .ok header) :
    run.index < UInt32.size ∧ run.entries.size < UInt32.size ∧ header.layout = run.layout := by
  unfold Run.header at made
  split at made
  · cases made
  · split at made
    · cases made
    · cases made
      exact ⟨by omega, by omega, rfl⟩

theorem Spillable.storable {header : RunHeader} (spillable : run.Spillable index layout)
    (describes : Describes header index run) : ∀ e ∈ run.entries.toList, e.Storable header := by
  intro e listed
  have same : header.layout = layout := describes.layout_eq.trans spillable.sound.layout_eq
  refine ⟨?_, spillable.counts e listed, spillable.blocks e listed, fun p member => ?_, ?_⟩
  · rw [same]
    exact spillable.sound.entries e listed
  · obtain ⟨range, found, low, high⟩ := docRange_bounds spillable.sound.entries listed member
    have ⟨first, last⟩ := describes.range_eq range found
    rw [first, last]
    exact ⟨low, high⟩
  · rw [same]
    exact spillable.sizes e listed

/-- The bytes that a run is stored as behind a header. -/
def storedBytes (header : RunHeader) (run : Run) : List UInt8 :=
  header.encode ++ run.entries.toList.flatMap (RunEntry.encode header.layout)

theorem flatMap_chunksOf (staged : Array UInt8) (entries : List RunEntry) :
    (chunksOf layout staged entries).flatMap Array.toList =
      staged.toList ++ entries.flatMap (RunEntry.encode layout) := by
  induction entries generalizing staged with
  | nil => simp [chunksOf]
  | cons e entries ih =>
    unfold chunksOf
    dsimp only
    have written := e.toList_write layout staged
    by_cases full : chunkSize ≤ (e.write layout staged).size
    · rw [if_pos full, List.flatMap_cons, ih, written]
      simp
    · rw [if_neg full, ih, written]
      simp

/-- Chunks that could be delivered are added one behind another. -/
theorem content_deliver {sink sink' : W} {chunks : List (Array UInt8)}
    (delivered : deliver chunks sink = (.ok (), sink')) :
    FaithfulSink.content sink' = FaithfulSink.content sink ++ chunks.flatMap Array.toList := by
  induction chunks generalizing sink with
  | nil =>
    cases delivered
    exact (List.append_nil _).symm
  | cons chunk chunks ih =>
    rw [deliver] at delivered
    split at delivered
    · rename_i written
      rw [ih delivered, FaithfulSink.content_write written, List.append_assoc]
      rfl
    · cases delivered

omit [FaithfulSink W] in
theorem deliver_eq_ok {sink : W} (neverFails : NeverFails sink) (chunks : List (Array UInt8)) :
    ∃ sink', deliver chunks sink = (.ok (), sink') := by
  induction chunks generalizing sink with
  | nil => exact ⟨sink, rfl⟩
  | cons chunk chunks ih =>
    obtain ⟨next, written, still⟩ := neverFails.write chunk
    obtain ⟨sink', rest⟩ := ih still
    refine ⟨sink', ?_⟩
    rw [deliver, written]
    exact rest

/-- A run that could be stored has a header, and is stored as its header and its entries. -/
theorem content_spill {sink sink' : W} (spilled : run.spill sink = (.ok (), sink')) :
    ∃ header, run.header = .ok header ∧
      FaithfulSink.content sink' = FaithfulSink.content sink ++ storedBytes header run := by
  cases made : run.header with
  | error e =>
    rw [spill, chunks, made] at spilled
    cases spilled
  | ok header =>
    rw [spill, chunks, made] at spilled
    refine ⟨header, rfl, ?_⟩
    rw [content_deliver spilled, flatMap_chunksOf, storedBytes, (words_of_header made).2.2]

/-- A run with a header is stored in a fresh sink. -/
theorem spill_eq_ok {sink : W} {header : RunHeader} (fresh : Fresh sink)
    (made : run.header = .ok header) :
    ∃ sink', run.spill sink = (.ok (), sink') ∧
      FaithfulSink.content sink' = storedBytes header run := by
  obtain ⟨sink', delivered⟩ := deliver_eq_ok fresh.neverFails
    (chunksOf run.layout header.encode.toArray run.entries.toList)
  have spilled : run.spill sink = (.ok (), sink') := by
    rw [spill, chunks, made]
    exact delivered
  obtain ⟨_, same, content⟩ := content_spill spilled
  rw [made] at same
  cases same
  rw [fresh.empty, List.nil_append] at content
  exact ⟨sink', spilled, content⟩

/-- The cursor before the first entry of a stored run. -/
def storedStart (name : String) (header : RunHeader) (run : Run) : StoredCursor where
  source := some (.ofList (run.entries.toList.flatMap (RunEntry.encode header.layout)))
  name
  header
  term := []
  statistics := .empty
  isPositioned := false
  remainingTerms := header.termCount.toNat
  pendingPostings := 0
  pendingBytes := 0
  lastDoc := none

section Start

variable {header : RunHeader} (describes : Describes header index run) (name : String)

include describes

theorem start_storedBytes : StoredCursor.start name (.ofList (storedBytes header run)) =
    .ok (storedStart name header run) :=
  StoredCursor.start_of_decode ((RunHeader.reads_decode describes.range_le).source _ none)

theorem before_storedStart (sound : run.Sound index layout) :
    (storedStart name header run).Before [] run.entries.toList none := by
  refine ⟨rfl, ?_, rfl, rfl, sound.ascending⟩
  rw [Array.length_toList]
  exact describes.count_eq

/-- A cursor over the bytes of a stored run goes over the entries of the run. -/
theorem start_eq_ok (spillable : run.Spillable index layout) (position : Nat) :
    ∃ cursor, StoredCursor.start name (.ofList (storedBytes header run)) = .ok cursor ∧
      cursor.header = header ∧
      (⟨position, cursor⟩ : Lease StoredCursor).Walks index run.entries.toList := by
  have walks := StoredCursor.walks_stored position
    (before_storedStart describes name spillable.sound) (spillable.storable describes)
  have number : (storedStart name header run).runIndex = index := describes.index_eq
  rw [number] at walks
  exact ⟨_, start_storedBytes describes name, rfl, walks⟩

end Start

end Run

end IndexMerge
