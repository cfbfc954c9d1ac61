import IndexMerge.Proofs.InvertedFile.Tiling
import IndexMerge.Proofs.Merge.Calls
import IndexMerge.Proofs.Merge.Lockstep
import IndexMerge.Proofs.Merge.Step
import IndexMerge.Proofs.Merge.Tally

/-!
# The lists of a merge have no gaps

Every step of a merge that succeeds tells where it stored the list of its term, which is where the
merge stood before the step (`tiled_step`). So over a sink that never fails the lists of any number
of steps are all that the inverted file holds, in the order of the numbers of their terms, and can
be read with their lengths alone (`tiling_of_steps`). Nothing is asked of the cursors.
-/

namespace IndexMerge.Merge

open PostingSource

section Steps

variable {C S D : Type} [RunCursor C] [PostingSink S] [Dictionary D]

/-- The merge and the dictionary after a number of steps, whichever succeed. -/
def afterSteps (count : Nat) (m : Merge C S) (dictionary : D) : Merge C S × D :=
  perform (List.replicate count .step) m dictionary

theorem afterSteps_succ (count : Nat) (m : Merge C S) (dictionary : D) :
    afterSteps (count + 1) m dictionary =
      ((afterSteps count m dictionary).1.step (afterSteps count m dictionary).2).2 := by
  unfold afterSteps
  rw [List.replicate_succ', perform, List.foldl_append]
  rfl

end Steps

variable {F C D W : Type} [RunCursor C] [RunOpener F C] [Dictionary D] [ByteSink W]
  [FaithfulSink W] {layout : Layout} {lists : List (List Posting)}
  {m m' : Merge C (PostingWriter W)} {dictionary dictionary' : D} {merged : MergedTerm}

/-- A list that was stored is what the cursors gave, as many postings as they announced, and lies
behind the lists before it. -/
theorem tiled_store {sink : PostingWriter W} (h : sink.Tiled layout lists) {term : Term}
    {leases : List (Lease C)} {pointer : BitPosition}
    (stored : (store term leases sink).1 = .ok pointer) :
    ∃ list after, Yields (PostingSequence.ofList (leases.map Lease.openPostings)) list after ∧
      list.length = announced leases ∧ pointer = sink.position ∧
      (store term leases sink).2.2.Tiled layout (lists ++ [list]) := by
  unfold store at stored ⊢
  dsimp only at stored ⊢
  split at stored
  · cases stored
  · rename_i place source sink' written
    by_cases counted : source.count = announced leases
    · rw [if_pos counted] at stored ⊢
      cases stored
      obtain ⟨list, yields, here, tiled⟩ := h.write written
      have count := CountedPostings.count_of_yields yields
      refine ⟨list, source.inner, yields.of_counted, ?_, here, tiled⟩
      rw [← counted, count, Nat.zero_add]
    · rw [if_neg counted] at stored
      cases stored

/-- The list of a step: what the cursors of the least group gave, as many postings as the term is
told to have, stored where the merge stood. -/
structure Lays (m : Merge C (PostingWriter W)) (merged : MergedTerm) (list : List Posting) :
    Prop where
  given : ∃ first rest schedule after, m.schedule.popGroup = some (first, rest, schedule) ∧
    Yields (PostingSequence.ofList ((first :: rest).map Lease.openPostings)) list after
  length : list.length = merged.statistics.documentFrequency.toNat
  pointer : merged.statistics.pointer = some m.position
  termId : merged.termId.toNat = m.progress.terms

/-- A step that succeeds lays a list behind the lists before it. -/
theorem tiled_step (h : m.sink.Tiled layout lists)
    (stepped : m.step dictionary = (.ok merged, m', dictionary')) :
    ∃ list, Lays m merged list ∧ m'.sink.Tiled layout (lists ++ [list]) ∧
      m'.progress.terms = m.progress.terms + 1 := by
  obtain ⟨first, rest, schedule, popped, writes, number, -⟩ := step_eq_ok stepped
  obtain ⟨place, stored, pointer⟩ := writes.stored
  obtain ⟨list, after, yields, length, rfl, tiled⟩ := tiled_store h stored
  rw [← writes.sink_eq] at tiled
  have termId : merged.termId.toNat = m.progress.terms := by
    rw [number]
    exact UInt32.toNat_ofNat_of_lt' writes.room
  exact ⟨list, ⟨⟨first, rest, schedule, after, popped, yields⟩,
    length.trans writes.documentFrequency.symm, pointer, termId⟩, tiled,
    congrArg Progress.terms writes.progress_eq⟩

/-- Lists that the steps of a merge laid one behind another. -/
structure Tiles (layout : Layout) (begun : Merge C (PostingWriter W)) (dictionary : D)
    (told : List MergedTerm) (lists : List (List Posting)) : Prop where
  length_eq : lists.length = told.length
  tiled : ∀ k ≤ told.length, (afterSteps k begun dictionary).1.sink.Tiled layout (lists.take k)
  terms : ∀ k ≤ told.length, (afterSteps k begun dictionary).1.progress.terms = k
  lays : ∀ k merged list, told[k]? = some merged → lists[k]? = some list →
    Lays (afterSteps k begun dictionary).1 merged list

section Tiles

variable {begun : Merge C (PostingWriter W)} {told : List MergedTerm}

/-- The list of a step that succeeds lies behind the lists before it. -/
theorem Tiles.step (h : Tiles layout begun dictionary told lists)
    (succeeds : ((afterSteps told.length begun dictionary).1.step
      (afterSteps told.length begun dictionary).2).1 = .ok merged) :
    ∃ list, Tiles layout begun dictionary (told ++ [merged]) (lists ++ [list]) := by
  have length := h.length_eq
  have here := h.tiled told.length (Nat.le_refl _)
  have terms := h.terms told.length (Nat.le_refl _)
  have behind := afterSteps_succ told.length begun dictionary
  rw [← length, List.take_length] at here
  rw [← length] at succeeds behind
  rcases stepped : (afterSteps lists.length begun dictionary).1.step
    (afterSteps lists.length begun dictionary).2 with ⟨result, m', dictionary'⟩
  rw [stepped] at succeeds behind
  cases succeeds
  obtain ⟨list, laid, tiled, counted⟩ := tiled_step here stepped
  -- The only new state is the one behind the step.
  have last : ∀ k, k ≤ (told ++ [merged]).length → ¬k ≤ told.length → k = lists.length + 1 := by
    intro k le beyond
    simp only [List.length_append, List.length_singleton] at le
    omega
  refine ⟨list, by simp [length], ?_, ?_, ?_⟩
  · intro k le
    by_cases within : k ≤ told.length
    · rw [List.take_append_of_le_length (by omega)]
      exact h.tiled k within
    · obtain rfl := last k le within
      rw [behind, List.take_of_length_le (by simp)]
      exact tiled
  · intro k le
    by_cases within : k ≤ told.length
    · exact h.terms k within
    · obtain rfl := last k le within
      rw [behind, counted, length, terms]
  · intro k other postings found listed
    by_cases within : k < told.length
    · rw [List.getElem?_append_left within] at found
      rw [List.getElem?_append_left (by omega)] at listed
      exact h.lays k other postings found listed
    · have inside := (List.getElem?_eq_some_iff.mp found).1
      obtain rfl : k = lists.length := Nat.succ.inj (last (k + 1) inside (by omega))
      simp only [length, List.getElem?_concat_length, Option.some.injEq] at found
      simp only [List.getElem?_concat_length, Option.some.injEq] at listed
      rw [← found, ← listed]
      exact laid

/-- Steps that succeed lay lists one behind another. -/
theorem tiles_steps (blank : begun.sink.Tiled layout []) (zero : begun.progress.terms = 0)
    (succeeds : ∀ k merged, told[k]? = some merged →
      ((afterSteps k begun dictionary).1.step (afterSteps k begun dictionary).2).1 = .ok merged) :
    ∃ lists, Tiles layout begun dictionary told lists := by
  induction told using List.reverseRecOn with
  | nil =>
    refine ⟨[], rfl, ?_, ?_, by simp⟩
    · intro k le
      rw [Nat.le_zero.mp le]
      exact blank
    · intro k le
      rw [Nat.le_zero.mp le]
      exact zero
  | append_singleton front last ih =>
    obtain ⟨lists, tiles⟩ := ih fun k merged found => by
      apply succeeds
      rw [List.getElem?_append_left (List.getElem?_eq_some_iff.mp found).1, found]
    obtain ⟨list, more⟩ := tiles.step (succeeds front.length last (by simp))
    exact ⟨lists ++ [list], more⟩

namespace Tiles

variable (h : Tiles layout begun dictionary told lists)

include h

/-- The merge stands behind the codes of the lists that were laid. -/
theorem position_eq {k : Nat} (le : k ≤ told.length) :
    (afterSteps k begun dictionary).1.position =
      .ofBits (PostingWriter.listsCode layout (lists.take k)).length :=
  (h.tiled k le).position_eq

/-- The lists are as long as the terms are told to have postings. -/
theorem lengths_eq :
    lists.map List.length = told.map (·.statistics.documentFrequency.toNat) := by
  refine List.ext_getElem (by simp [h.length_eq]) fun k hk hk' => ?_
  simp only [List.length_map] at hk hk'
  rw [List.getElem_map, List.getElem_map]
  exact (h.lays k told[k] lists[k] (List.getElem?_eq_getElem hk')
    (List.getElem?_eq_getElem hk)).length

/-- If all terms have postings, the merge stands at a later place after each step. -/
theorem compare_position (counted : ∀ merged ∈ told, merged.statistics.documentFrequency ≠ 0)
    {i j : Nat} (less : i < j) (le : j ≤ told.length) :
    (afterSteps i begun dictionary).1.position.compare
      (afterSteps j begun dictionary).1.position = .lt := by
  have nonempty : ∀ list ∈ lists, list ≠ [] := by
    intro list member none
    have zero : 0 ∈ lists.map List.length := List.mem_map.mpr ⟨list, member, by simp [none]⟩
    rw [h.lengths_eq] at zero
    obtain ⟨merged, listed, zero⟩ := List.mem_map.mp zero
    exact counted merged listed (UInt32.toNat_inj.mp zero)
  rw [h.position_eq (by omega), h.position_eq le]
  apply BitPosition.compare_ofBits
  exact PostingWriter.length_listsCode_take nonempty less (h.length_eq ▸ le)

/-- After the last step all lists were written. -/
theorem tiled_last : (afterSteps told.length begun dictionary).1.sink.Tiled layout lists := by
  have all := h.tiled told.length (Nat.le_refl _)
  rwa [← h.length_eq, List.take_length, h.length_eq] at all

end Tiles

end Tiles

section Closing

variable {S : Type} {sink : S}

omit [Dictionary D] in
/-- A merge that was started has its sink, and has counted nothing. -/
theorem sink_of_start {count interval : Nat} {opener opener' : F} {begun : Merge C S}
    (begins : start count opener sink interval = (.ok (), opener', begun)) :
    begun.sink = sink ∧ begun.progress.terms = 0 := by
  unfold start at begins
  split at begins
  · cases begins
  · cases begins
    exact ⟨rfl, rfl⟩

variable [PostingSink S] {m closed : Merge C S}

/-- A merge that is finished with success has closed its sink. -/
theorem close_of_finish {progress : Progress} (finished : finish m = (.ok progress, closed)) :
    PostingSink.close m.sink = (.ok (), closed.sink) := by
  cases fault : m.held.findSome? Lease.closeFault? with
  | some e =>
    have fails := (finish_of_fault fault).1
    rw [finished] at fails
    cases fails
  | none =>
    obtain ⟨result, sink⟩ := finish_of_sound fault
    rw [finished] at result sink
    rcases closing : PostingSink.close m.sink with ⟨e | done, after⟩
    · rw [closing] at result
      cases result
    · rw [closing] at sink
      rw [sink]

/-- A merge that wrote all terms can be finished if its sink can be closed. -/
theorem finish_of_isDone {after : S} (done : m.isDone = true)
    (closing : PostingSink.close m.sink = (.ok (), after)) : (finish m).1 = .ok m.progress := by
  have unscheduled : m.held = [] := Schedule.toList_of_isEmpty (Bool.and_eq_true_iff.mp done).2
  have sound : m.held.findSome? Lease.closeFault? = none := by rw [unscheduled, List.findSome?_nil]
  rw [(finish_of_sound sound).1, closing]
  rfl

end Closing

/-- A merge into a posting writer over a sink that never fails was started, and its steps succeed.
Whatever the cursors give, each step stores what those on its term give, as many postings as it
tells, and tells the next number and the place where the merge stood before it, which is at first
the beginning; the dictionary is given just this. If all terms have postings, these places ascend.
When the merge is finished, the inverted file holds the codes of the lists in this order and less
than a byte of zeros. Each list is read back from its place, and all of them are read one after
another from the beginning, given only how many postings they have. -/
theorem tiling_of_steps {sink : W} (fresh : Fresh sink) {layout : Layout}
    {capacity count interval : Nat} {opener opener' : F} {begun : Merge C (PostingWriter W)}
    (begins : start count opener (PostingWriter.start capacity sink layout) interval =
      (.ok (), opener', begun)) {dictionary : D} {told : List MergedTerm}
    (succeeds : ∀ k merged, told[k]? = some merged →
      ((afterSteps k begun dictionary).1.step (afterSteps k begun dictionary).2).1 = .ok merged) :
    let state k := afterSteps k begun dictionary
    let last := (state told.length).1
    ∃ lists : List (List Posting), lists.length = told.length ∧
      (state 0).1.position = ⟨0, 0⟩ ∧
      (∀ k merged list, told[k]? = some merged → lists[k]? = some list →
        Lays (state k).1 merged list ∧ merged.termId.toNat = k ∧
          Dictionary.add ⟨merged.term, merged.statistics⟩ (state k).2 =
            (.ok (), (state (k + 1)).2)) ∧
      ((∀ merged ∈ told, merged.statistics.documentFrequency ≠ 0) → ∀ i j, i < j →
        j ≤ told.length → (state i).1.position.compare (state j).1.position = .lt) ∧
      (last.isDone = true → (finish last).1 = .ok last.progress) ∧
      ∀ progress closed, finish last = (.ok progress, closed) →
        let file := (FaithfulSink.content closed.sink.bits.sink).toArray
        (∃ zeros < 8, bytesBits file.toList =
          PostingWriter.listsCode layout lists ++ List.replicate zeros false) ∧
        (∀ k merged list, told[k]? = some merged → lists[k]? = some list →
          readPostings file (state k).1.position merged.statistics.documentFrequency.toNat layout =
            .ok list) ∧
        (PostingReader.readLists layout
          (told.map (·.statistics.documentFrequency.toNat)) (.start file)).1 = .ok lists := by
  intro state last
  obtain ⟨same, zero⟩ := sink_of_start begins
  have blank : begun.sink.Tiled layout [] := same ▸ PostingWriter.tiled_start capacity fresh
  obtain ⟨lists, tiles⟩ := tiles_steps blank zero succeeds
  have all : last.sink.Tiled layout lists := tiles.tiled_last
  obtain ⟨closed, closing, zeros, less, content⟩ := all.close
  refine ⟨lists, tiles.length_eq, ?_, ?_, ?_, fun done => finish_of_isDone done closing, ?_⟩
  · rw [tiles.position_eq (Nat.zero_le _)]
    simp [PostingWriter.listsCode, BitPosition.ofBits]
  · intro k merged list found listed
    have inside := (List.getElem?_eq_some_iff.mp found).1
    have laid := tiles.lays k merged list found listed
    have stepped : (state k).1.step (state k).2 =
        (.ok merged, (state (k + 1)).1, (state (k + 1)).2) := by
      simp only [state, afterSteps_succ]
      exact Prod.ext (succeeds k merged found) rfl
    obtain ⟨-, -, -, -, -, -, added⟩ := step_eq_ok stepped
    exact ⟨laid, laid.termId.trans (tiles.terms k (Nat.le_of_lt inside)), added⟩
  · intro counted i j before le
    exact tiles.compare_position counted before le
  · intro progress finished done file
    cases closing.symm.trans (close_of_finish done)
    refine ⟨⟨zeros, less, content⟩, ?_, ?_⟩
    · intro k merged list found listed
      obtain ⟨hk, rfl⟩ := List.getElem?_eq_some_iff.mp listed
      have inside := (List.getElem?_eq_some_iff.mp found).1
      rw [tiles.position_eq (Nat.le_of_lt inside), ← (tiles.lays k merged _ found listed).length]
      exact all.readPostings_eq_ok content hk
    · rw [← tiles.lengths_eq]
      exact all.readLists_eq_ok content

/-- The merge of two runs into an inverted file, before its first step. -/
def overlappingMerge : Merge MemoryCursor (PostingWriter (Array UInt8)) :=
  (start 2 overlappingRuns (PostingWriter.start 1 #[] ⟨0, false⟩) 0).2.2

/-- What the steps of this merge tell. The second list begins within a byte. -/
def overlappingTerms : List MergedTerm :=
  [⟨[97], 0, [0, 1], ⟨3, 6, [], some 0, some ⟨0, 0⟩⟩⟩,
    ⟨[97, 98], 1, [0], ⟨1, 1, [], some 1, some ⟨2, 4⟩⟩⟩]

theorem tells_overlapping (k : Nat) (merged : MergedTerm)
    (found : overlappingTerms[k]? = some merged) :
    ((afterSteps k overlappingMerge (#[] : Array LexiconEntry)).1.step
      (afterSteps k overlappingMerge (#[] : Array LexiconEntry)).2).1 = .ok merged := by
  match k, found with
  | 0, found =>
    cases found
    decide +kernel
  | 1, found =>
    cases found
    decide +kernel
  | k + 2, found => cases found

/-- Both lists are read back from their places, and one after the other. -/
theorem tiling_of_steps_overlapping : ∃ first second closed,
    (finish (afterSteps 2 overlappingMerge (#[] : Array LexiconEntry)).1) =
        (.ok ⟨2, 4⟩, closed) ∧
      readPostings closed.sink.bits.sink ⟨0, 0⟩ 3 ⟨0, false⟩ = .ok first ∧
      readPostings closed.sink.bits.sink ⟨2, 4⟩ 1 ⟨0, false⟩ = .ok second ∧
      (PostingReader.readLists ⟨0, false⟩ [3, 1] (.start closed.sink.bits.sink)).1 =
        .ok [first, second] := by
  obtain ⟨opener, begins⟩ : ∃ opener, start 2 overlappingRuns
      (PostingWriter.start 1 (#[] : Array UInt8) ⟨0, false⟩) 0 =
        (.ok (), opener, overlappingMerge) := ⟨_, Prod.ext (by decide +kernel) rfl⟩
  have second : (afterSteps 1 overlappingMerge (#[] : Array LexiconEntry)).1.position =
      ⟨2, 4⟩ := by decide +kernel
  obtain ⟨closed, finished⟩ : ∃ closed,
      finish (afterSteps 2 overlappingMerge (#[] : Array LexiconEntry)).1 =
        (.ok ⟨2, 4⟩, closed) := ⟨_, Prod.ext (by decide +kernel) rfl⟩
  obtain ⟨lists, length, begin, -, -, -, read⟩ :=
    tiling_of_steps fresh_array begins tells_overlapping
  obtain ⟨a, b, rfl⟩ := List.length_eq_two.mp length
  obtain ⟨-, each, row⟩ := read _ closed finished
  have front := each 0 _ a rfl rfl
  have behind := each 1 _ b rfl rfl
  rw [begin] at front
  rw [second] at behind
  exact ⟨a, b, closed, finished, front, behind, row⟩

end IndexMerge.Merge
