import IndexMerge.Proofs.InvertedFile.Watched
import IndexMerge.Proofs.Merge.Memory
import IndexMerge.Proofs.Merge.Step
import IndexMerge.Run.Faulty

/-!
# The balance of a merge

What a merge counts, what its dictionary holds and what its sink drained agree after any calls,
wherever a step failed and whatever the cursors reported (`balance_of_perform`): every case of a
step keeps the balance (`Balanced.step`, `Drained.step`). A merge that failed or was given up
changes its output no more.
-/

namespace IndexMerge

/-- A list that was stored for an entry begins at its pointer and has as many postings as its
document frequency says. -/
def LexiconEntry.Owns (e : LexiconEntry) (drawn : BitPosition × List Posting) : Prop :=
  e.statistics.pointer = some drawn.1 ∧ drawn.2.length = e.statistics.documentFrequency.toNat

/-- The lists that entries own have as many postings as the document frequencies say. -/
theorem total_of_owns {entries : List LexiconEntry} {drawn : List (BitPosition × List Posting)}
    (owns : List.Forall₂ LexiconEntry.Owns entries drawn) :
    total (drawn.map (·.2.length)) =
      total (entries.map (·.statistics.documentFrequency.toNat)) := by
  induction owns with
  | nil => rfl
  | cons owns _ ih => rw [List.map_cons, List.map_cons, total_cons, total_cons, ih, owns.2]

namespace Merge

variable {F C S : Type} [RunCursor C]

section Counted

/-- The progress of a merge is that of its dictionary: its terms are as many, told in this order
since the merge began and numbered in it, and its postings are as many as the document frequencies
say. -/
structure Balanced (begun : Journal) (m : Merge C S) (dictionary : Array LexiconEntry) : Prop where
  terms : m.progress.terms = dictionary.size
  merged : m.schedule.journal.merged.map (·.1) =
    begun.merged.map (·.1) ++ dictionary.toList.map LexiconEntry.term
  numbers : ∀ k (hk : k < dictionary.size), ∃ id, dictionary[k].statistics.termId = some id ∧
    id.toNat = k
  postings : m.progress.postings =
    total (dictionary.toList.map (·.statistics.documentFrequency.toNat))

variable {begun : Journal} {m m' : Merge C S} {leases : List (Lease C)} {e : LexiconEntry}
  {dictionary : Array LexiconEntry}

theorem Balanced.congr (h : Balanced begun m dictionary) (progress : m'.progress = m.progress)
    (merged : m'.schedule.journal.merged = m.schedule.journal.merged) :
    Balanced begun m' dictionary :=
  ⟨by rw [progress, h.terms], by rw [merged, h.merged], h.numbers, by rw [progress, h.postings]⟩

/-- A merge that begins has a balance. -/
theorem Balanced.start [RunOpener F C] (count : Nat) (opener : F) (sink : S) (interval : Nat) :
    let (_, _, m) := start count opener sink interval
    Balanced m.schedule.journal m #[] := by
  unfold Merge.start
  rcases Schedule.start count opener with ⟨_ | _, opener', schedule⟩ <;>
    exact ⟨rfl, by simp, by simp, rfl⟩

theorem Balanced.abort (h : Balanced begun m dictionary) :
    Balanced begun (Merge.abort m).2 dictionary :=
  h.congr rfl (Schedule.merged_releaseAll m.schedule)

variable [PostingSink S]

/-- A term that is written keeps the balance. -/
theorem Balanced.push (h : Balanced begun m dictionary) (writes : Writes leases e m m') :
    Balanced begun m' (dictionary.push e) := by
  refine ⟨?_, ?_, fun k hk => ?_, ?_⟩
  · rw [writes.progress_eq, Array.size_push, h.terms]
  · rw [writes.merged_eq, List.map_append, h.merged, Array.toList_push, List.map_append,
      List.append_assoc]
    rfl
  · rw [Array.getElem_push]
    split
    · exact h.numbers k ‹_›
    · rw [Array.size_push] at hk
      refine ⟨_, writes.termId, ?_⟩
      rw [UInt32.toNat_ofNat_of_lt' writes.room, h.terms]
      omega
  · rw [writes.progress_eq, h.postings, Array.toList_push, List.map_append, total_append]
    simp

/-- A step keeps the balance, whether or not it succeeds. -/
theorem Balanced.step (h : Balanced begun m dictionary) :
    Balanced begun (m.step dictionary).2.1 (m.step dictionary).2.2 := by
  have stepped := steps_step m dictionary
  generalize m.step dictionary = outcome at *
  cases stepped with
  | spent => exact h
  | complete => exact h
  | written _ _ _ writes => exact h.push writes
  | refused _ _ _ refuses => exact h.congr refuses.progress_eq refuses.merged_eq

end Counted

section Drained

variable [PostingSink S] {m m' : Merge C (WatchedSink S)} {leases : List (Lease C)}
  {e : LexiconEntry} {dictionary : Array LexiconEntry}

/-- What a sink drained is the lists of the entries of a dictionary, one behind another, and if a
step failed maybe a list more that has no entry. -/
structure Drained (m : Merge C (WatchedSink S)) (dictionary : Array LexiconEntry)
    (entered behind : List (BitPosition × List Posting)) : Prop where
  drained_eq : m.sink.drained.toList = entered ++ behind
  owns : List.Forall₂ LexiconEntry.Owns dictionary.toList entered
  sound : m.isPoisoned = false → behind = []

/-- Storing a group drains its list. It is as long as the cursors announce, or storing fails. -/
theorem drained_store (term : Term) (leases : List (Lease C)) (sink : WatchedSink S) :
    (∃ pointer list, (store term leases sink).1 = .ok pointer ∧ list.length = announced leases ∧
        (store term leases sink).2.2.drained = sink.drained.push (pointer, list)) ∨
      (∃ e, (store term leases sink).1 = .error e) ∧
        ∃ behind, (store term leases sink).2.2.drained.toList = sink.drained.toList ++ behind := by
  let source : CountedPostings (PostingSequence (Lease C)) :=
    ⟨.ofList (leases.map Lease.openPostings), 0⟩
  have written := WatchedSink.write_cases source sink
  unfold store
  dsimp only
  split <;> rename_i result <;> rw [result] at written
  · obtain ⟨_, same⟩ | ⟨place, list, done, _⟩ := written
    · exact .inr ⟨⟨_, rfl⟩, [], by rw [List.append_nil, ← same]⟩
    · cases done
  · rename_i pointer postings sink'
    obtain ⟨⟨e, failed⟩, _⟩ | ⟨place, list, done, drained, count⟩ := written
    · cases failed
    · cases done
      split <;> rename_i counted
      · refine .inl ⟨pointer, list, rfl, ?_, drained⟩
        rw [← counted, count]
        exact (Nat.zero_add _).symm
      · refine .inr ⟨⟨_, rfl⟩, [(pointer, list)], ?_⟩
        exact (congrArg Array.toList drained).trans Array.toList_push

/-- A term that is written owns the list that was drained last. -/
theorem Drained.push {entered behind : List (BitPosition × List Posting)}
    (h : Drained m dictionary entered behind) (sound : m.isPoisoned = false)
    (writes : Writes leases e m m') : ∃ drawn, Drained m' (dictionary.push e)
      (entered ++ [drawn]) [] := by
  obtain ⟨pointer, stored, place⟩ := writes.stored
  obtain ⟨pointer', list, stored', length, drained⟩ | ⟨⟨_, failed⟩, _⟩ :=
    drained_store e.term leases m.sink
  · rw [stored] at stored'
    cases stored'
    have owns : e.Owns (pointer, list) := ⟨place, by rw [writes.documentFrequency, length]⟩
    refine ⟨(pointer, list), ?_, ?_, fun _ => rfl⟩
    · rw [writes.sink_eq, drained, Array.toList_push, h.drained_eq, h.sound sound,
        List.append_nil, List.append_nil]
    · rw [Array.toList_push]
      exact List.rel_append h.owns (.cons owns .nil)
  · rw [stored] at failed
    cases failed

/-- What is refused adds no list of an entry. -/
theorem Drained.refuse {entered behind : List (BitPosition × List Posting)}
    (h : Drained m dictionary entered behind) (refuses : Refuses m m')
    (poisoned : m'.isPoisoned = true) : ∃ behind, Drained m' dictionary entered behind := by
  have unsound {behind : List (BitPosition × List Posting)} :
      m'.isPoisoned = false → behind = [] := by simp [poisoned]
  rcases refuses.sink_eq with same | ⟨term, leases, same⟩
  · exact ⟨behind, by rw [same, h.drained_eq], h.owns, unsound⟩
  · obtain ⟨pointer, list, _, _, drained⟩ | ⟨_, more, drained⟩ := drained_store term leases m.sink
    · refine ⟨behind ++ [(pointer, list)], ?_, h.owns, unsound⟩
      rw [same, drained, Array.toList_push, h.drained_eq, List.append_assoc]
    · refine ⟨behind ++ more, ?_, h.owns, unsound⟩
      rw [same, drained, h.drained_eq, List.append_assoc]

/-- A step keeps what was drained for the dictionary, whether or not it succeeds. -/
theorem Drained.step {entered behind : List (BitPosition × List Posting)}
    (h : Drained m dictionary entered behind) :
    ∃ entered behind, Drained (m.step dictionary).2.1 (m.step dictionary).2.2 entered behind := by
  have stepped := steps_step m dictionary
  generalize m.step dictionary = outcome at *
  cases stepped with
  | spent => exact ⟨entered, behind, h⟩
  | complete => exact ⟨entered, behind, h⟩
  | written sound _ _ writes =>
    obtain ⟨drawn, pushed⟩ := h.push sound writes
    exact ⟨entered ++ [drawn], [], pushed⟩
  | refused _ _ poisoned refuses => exact ⟨entered, h.refuse refuses poisoned⟩

omit [PostingSink S] in
theorem Drained.abort {entered behind : List (BitPosition × List Posting)}
    (h : Drained m dictionary entered behind) :
    Drained (Merge.abort m).2 dictionary entered behind :=
  ⟨h.drained_eq, h.owns, nofun⟩

omit [PostingSink S] in
/-- A merge that begins with a sink that drained nothing has drained nothing. -/
theorem Drained.start [RunOpener F C] (count : Nat) (opener : F) (sink : S) (interval : Nat) :
    Drained (Merge.start count opener (⟨sink, #[]⟩ : WatchedSink S) interval).2.2 #[] [] [] := by
  unfold Merge.start
  rcases Schedule.start count opener with ⟨_ | _, opener', schedule⟩ <;>
    exact ⟨rfl, .nil, fun _ => rfl⟩

end Drained

section Halted

variable [PostingSink S] {m : Merge C S} {dictionary : Array LexiconEntry}

/-- A call ends a merge before its terms are written: a step that fails, or giving it up. -/
def Halts (m : Merge C S) (dictionary : Array LexiconEntry) : Call → Prop
  | .step => m.isDone = false ∧ ∃ e, (m.step dictionary).1 = .error e
  | .abort => True

theorem isPoisoned_of_halts {next : Call} (halts : Halts m dictionary next) :
    (call next (m, dictionary)).1.isPoisoned = true := by
  cases next with
  | abort => rfl
  | step =>
    obtain ⟨pending, e, failed⟩ := halts
    show (m.step dictionary).2.1.isPoisoned = true
    have stepped := steps_step m dictionary
    generalize m.step dictionary = outcome at *
    cases stepped with
    | spent poisoned => exact poisoned
    | complete done =>
      rw [pending] at done
      cases done
    | written _ _ poisoned _ =>
      cases failed
      exact poisoned
    | refused _ _ poisoned _ => exact poisoned

theorem step_of_isPoisoned (poisoned : m.isPoisoned = true) (dictionary : Array LexiconEntry) :
    m.step dictionary = (.error (.operation .mergeAfterFailure), m, dictionary) := by
  unfold Merge.step
  rw [if_pos poisoned]

/-- Calls of a merge that goes no further change neither its output nor the dictionary. -/
theorem sameOutput_perform (poisoned : m.isPoisoned = true) (calls : List Call)
    (dictionary : Array LexiconEntry) :
    let (m', dictionary') := perform calls m dictionary
    m'.isPoisoned = true ∧ SameOutput m m' ∧ dictionary' = dictionary := by
  refine perform_keeps (P := fun m' dictionary' => m'.isPoisoned = true ∧ SameOutput m m' ∧
    dictionary' = dictionary) ?_ ?_ calls m dictionary ⟨poisoned, ⟨rfl, rfl, rfl⟩, rfl⟩
  · rintro m' dictionary' ⟨poisoned, same⟩
    rw [step_of_isPoisoned poisoned]
    exact ⟨poisoned, same⟩
  · rintro m' dictionary' ⟨_, ⟨sink, progress, merged⟩, same⟩
    exact ⟨rfl, ⟨sink, progress, (Schedule.merged_releaseAll m'.schedule).trans merged⟩, same⟩

/-- After a call that ended a merge every step is refused, and no call changes anything. -/
theorem perform_of_halts {next : Call} (halts : Halts m dictionary next) (later : List Call) :
    let (halted, entries) := call next (m, dictionary)
    let (m', entries') := perform later halted entries
    m'.step entries' = (.error (.operation .mergeAfterFailure), m', entries') ∧
      SameOutput halted m' ∧ entries' = entries := by
  have ⟨poisoned, same⟩ := sameOutput_perform (isPoisoned_of_halts halts) later
    (call next (m, dictionary)).2
  exact ⟨step_of_isPoisoned poisoned _, same⟩

/-- A step of a merge that wrote all terms fails and changes nothing. -/
theorem step_of_isDone (done : m.isDone = true) (dictionary : Array LexiconEntry) :
    m.step dictionary = (.error (.violation .mergeComplete), m, dictionary) := by
  have stepped := steps_step m dictionary
  generalize m.step dictionary = outcome at *
  cases stepped with
  | spent poisoned => simp [isDone, poisoned] at done
  | complete => rfl
  | written _ pending => simp [pending] at done
  | refused _ pending => simp [pending] at done

end Halted

/-- Whatever is called, and whatever fails in the cursors and in the sink, progress, dictionary and
sink agree: as many terms are counted as the dictionary has entries, these are numbered in the order
in which they were told, and the postings that are counted are those that their document frequencies
say and that the sink drained for them. After a step that failed, or when the merge was given up,
every further step is refused and changes nothing, as it is when all terms were written. -/
theorem balance_of_perform [RunOpener F C] [PostingSink S] (count interval : Nat) (opener : F)
    (sink : S) (calls : List Call) :
    (let (_, _, begun) := start count opener sink interval
     let (m, dictionary) := perform calls begun (#[] : Array LexiconEntry)
     Balanced begun.schedule.journal m dictionary ∧
      (∀ next later, Halts m dictionary next →
        let (halted, entries) := call next (m, dictionary)
        let (m', entries') := perform later halted entries
        m'.step entries' = (.error (.operation .mergeAfterFailure), m', entries') ∧
          SameOutput halted m' ∧ entries' = entries) ∧
      (m.isDone = true →
        m.step dictionary = (.error (.violation .mergeComplete), m, dictionary))) ∧
    (let (_, _, begun) := start count opener (⟨sink, #[]⟩ : WatchedSink S) interval
     let (m, dictionary) := perform calls begun (#[] : Array LexiconEntry)
     Balanced begun.schedule.journal m dictionary ∧
      ∃ entered behind, Drained m dictionary entered behind ∧
        m.progress.postings = total (entered.map (·.2.length))) := by
  have balanced {S : Type} [PostingSink S] (sink : S) :
      let (_, _, begun) := start count opener sink interval
      let (m, dictionary) := perform calls begun (#[] : Array LexiconEntry)
      Balanced begun.schedule.journal m dictionary :=
    perform_keeps (fun _ _ => Balanced.step) (fun _ _ => Balanced.abort) calls _ _
      (Balanced.start count opener sink interval)
  refine ⟨⟨balanced sink, fun _ later halts => perform_of_halts halts later,
    fun done => step_of_isDone done _⟩, balanced _, ?_⟩
  obtain ⟨entered, behind, drained⟩ := perform_keeps
    (P := fun m dictionary => ∃ entered behind, Drained m dictionary entered behind)
    (fun _ _ ⟨_, _, h⟩ => h.step) (fun _ _ ⟨entered, behind, h⟩ => ⟨entered, behind, h.abort⟩)
    calls _ _ ⟨[], [], Drained.start count opener sink interval⟩
  refine ⟨entered, behind, drained, ?_⟩
  rw [total_of_owns drained.owns]
  exact (balanced (⟨sink, #[]⟩ : WatchedSink S)).postings

/-- The two runs on devices of which the first one fails when its cursor goes on. -/
def failingRuns : FaultyOpener (Array Run) :=
  ⟨overlappingRuns, fun position =>
    if position = 0 then { FaultPlan.none with failsAdvance := (· == 2) } else .none⟩

/-- The first step fails only when its term is written, and all calls behind it change nothing. -/
theorem balance_of_perform_failing :
    let (_, _, begun) := start 2 failingRuns ListSink.empty 0
    Halts begun #[] .step ∧
      let (halted, entries) := call .step (begun, (#[] : Array LexiconEntry))
      halted.progress = ⟨1, 3⟩ ∧ entries.size = 1 ∧
      let (m, dictionary) := perform [.abort, .step] halted entries
      m.step dictionary = (.error (.operation .mergeAfterFailure), m, dictionary) ∧
        SameOutput halted m ∧ dictionary = entries := by
  have halts : Halts (start 2 failingRuns ListSink.empty 0).2.2 #[] .step :=
    ⟨by decide +kernel, .io "run read" .deviceLost, by decide +kernel⟩
  exact ⟨halts, by decide +kernel, by decide +kernel,
    (balance_of_perform 2 0 failingRuns ListSink.empty []).1.2.1 .step [.abort, .step] halts⟩

end Merge

end IndexMerge
