import IndexMerge.Command.Merge
import IndexMerge.Proofs.InvertedFile.Alike
import IndexMerge.Proofs.Lexicon.Accepted
import IndexMerge.Proofs.Merge.Files
import IndexMerge.Proofs.Merge.Indexed
import IndexMerge.Proofs.Merge.Lockstep

/-!
# Options of a merge

The sizes of buffers say when bytes are delivered and the interval says when progress is told, and
neither is seen in what is written. Whether ranges are verified decides which files are merged, not
what is written of them. So merges of the same files under any options come to the same, whatever
the files hold, as long as they agree on the verification (`run_of_options`).
-/

namespace IndexMerge

open FaithfulSink

namespace LexiconWriter

variable {W : Type} [ByteSink W] [FaithfulSink W] {layout : Layout} {w v : LexiconWriter W}

/-- Two writers hold the same entries over sinks that never fail. -/
def Twins (layout : Layout) (w v : LexiconWriter W) : Prop :=
  ∃ entries, w.Holds layout entries ∧ v.Holds layout entries

theorem twins_start {sink : W} (fresh : Fresh sink) (capacity capacity' : Nat) :
    Twins layout (start capacity sink layout) (start capacity' sink layout) :=
  ⟨[], holds_start capacity fresh, holds_start capacity' fresh⟩

omit [FaithfulSink W] [ByteSink W] in
/-- What may come next does not depend on what was delivered. -/
theorem check_congr (isFinished : w.isFinished = v.isFinished)
    (fieldCount : w.fieldCount = v.fieldCount) (last : w.last = v.last) (count : w.count = v.count)
    (term : Term) (s : TermStatistics) : w.check term s = v.check term s := by
  unfold check
  rw [isFinished, fieldCount, last, count]

/-- Writers that hold the same entries answer an entry alike. -/
theorem Twins.add (h : Twins layout w v) (e : LexiconEntry) :
    (LexiconWriter.add e w).1 = (LexiconWriter.add e v).1 ∧
      Twins layout (LexiconWriter.add e w).2 (LexiconWriter.add e v).2 := by
  obtain ⟨entries, holds, holds'⟩ := h
  have same : v.check e.term e.statistics = w.check e.term e.statistics := by
    apply check_congr
    · exact holds'.isOpen.trans holds.isOpen.symm
    · exact holds'.fieldCount_eq.trans holds.fieldCount_eq.symm
    · exact holds'.last_eq.trans holds.last_eq.symm
    · exact holds'.count_eq.trans holds.count_eq.symm
  cases checked : w.check e.term e.statistics with
  | error error =>
    unfold LexiconWriter.add
    rw [same, checked]
    exact ⟨rfl, entries, holds, holds'⟩
  | ok placed =>
    have follows := follows_of_check holds.fieldCount_eq holds.count_eq holds.last_eq checked
    obtain ⟨w', added, holds⟩ := add_eq_ok holds follows
    obtain ⟨v', added', holds'⟩ := add_eq_ok holds' follows
    rw [added, added']
    exact ⟨rfl, entries ++ [e], holds, holds'⟩

/-- Writers that hold the same entries are finished alike and have delivered the same bytes. -/
theorem Twins.finish (h : Twins layout w v) :
    ∃ count w' v', LexiconWriter.finish w = (.ok count, w') ∧
      LexiconWriter.finish v = (.ok count, v') ∧ content w'.sink = content v'.sink := by
  obtain ⟨entries, holds, holds'⟩ := h
  obtain ⟨w', finished, bytes⟩ := finish_eq_ok holds
  obtain ⟨v', finished', bytes'⟩ := finish_eq_ok holds'
  exact ⟨entries.length, w', v', finished, finished', bytes.trans bytes'.symm⟩

end LexiconWriter

namespace RunFiles

variable {files files' : RunFiles} {position : Nat}

/-- The files without verification of their ranges. -/
def unverified (files : RunFiles) : RunFiles := { files with verifyRanges := false }

theorem checkRange_unverified (files : RunFiles) (position : Nat) (header : RunHeader) :
    files.unverified.checkRange position header = .ok () := by
  unfold checkRange unverified
  cases files.last with
  | none => rfl
  | some last => rfl

/-- A header that is accepted is accepted without verification, and the same is noted of it. -/
theorem accept_unverified {path : String} {header : RunHeader}
    (accepted : accept position path header files = (.ok (), files')) :
    accept position path header files.unverified = (.ok (), files'.unverified) := by
  unfold accept at accepted ⊢
  by_cases number : header.runIndex.toNat ≠ position
  · rw [if_pos number] at accepted
    cases accepted
  rw [if_neg number] at accepted ⊢
  have same : files.unverified.layout = files.layout := rfl
  rw [same]
  cases differs : files.layout.filter (· ≠ header.layout) with
  | some layout =>
    rw [differs] at accepted
    cases accepted
  | none =>
    rw [differs] at accepted
    dsimp only at accepted ⊢
    by_cases empty : header.isEmpty = true
    · rw [if_pos empty] at accepted ⊢
      cases accepted
      rfl
    · have noted : checkRange { files.unverified with layout := some header.layout } position
          header = .ok () := checkRange_unverified { files with layout := some header.layout } _ _
      rw [if_neg empty] at accepted ⊢
      rw [noted]
      split at accepted
      · cases accepted
      · cases accepted
        rfl

/-- A run that is opened is opened without verification. -/
theorem openRun_unverified {cursor : StoredCursor} {notices : List Notice}
    (opened : openRun position files = (.ok cursor, notices, files')) :
    openRun position files.unverified = (.ok cursor, notices, files'.unverified) := by
  have paths : files.unverified.paths = files.paths := rfl
  have store : files.unverified.store = files.store := rfl
  unfold openRun at opened ⊢
  rw [paths, store]
  cases listed : files.paths[position]? with
  | none =>
    rw [listed] at opened
    cases opened
  | some path =>
    rw [listed] at opened
    dsimp only at opened ⊢
    cases read : openFile files.store path with
    | error e =>
      rw [read] at opened
      cases opened
    | ok found =>
      rw [read] at opened
      dsimp only at opened ⊢
      rcases accepted : accept position path found.header files with ⟨e | _, after⟩ <;>
        rw [accepted] at opened <;> cases opened
      rw [accept_unverified accepted]

end RunFiles

namespace Schedule

variable {files files' : RunFiles} {s s' : Schedule StoredCursor}

theorem openRun_unverified {position : Nat}
    (opened : openRun position files s = (.ok (), files', s')) :
    openRun position files.unverified s = (.ok (), files'.unverified, s') := by
  have same : ∀ files, RunOpener.openRun position files = RunFiles.openRun position files :=
    fun _ => rfl
  unfold openRun at opened ⊢
  rw [same] at opened ⊢
  rcases result : RunFiles.openRun position files with ⟨e | cursor, notices, after⟩ <;>
    rw [result] at opened
  · cases opened
  · rw [RunFiles.openRun_unverified result]
    dsimp only at opened ⊢
    generalize enlist (C := StoredCursor) _ _ = outcome at opened ⊢
    obtain ⟨result, s₁⟩ := outcome
    cases opened
    rfl

/-- Runs that are all opened are opened without verification as well, and the same is scheduled. -/
theorem openRuns_unverified {count position : Nat}
    (opened : openRuns count position files s = (.ok (), files', s')) :
    openRuns count position files.unverified s = (.ok (), files'.unverified, s') := by
  induction count generalizing position files s with
  | zero =>
    cases opened
    rfl
  | succ count ih =>
    unfold openRuns at opened ⊢
    rcases first : openRun position files s with ⟨e | _, after, s₁⟩ <;> rw [first] at opened <;>
      dsimp only at opened
    · split at opened <;> cases opened
    · rw [openRun_unverified first]
      exact ih opened

end Schedule

namespace Command.MergeRequest

open PostingWriter (Twins)

variable {layout : Layout}

/-- Writers that have written the same go on alike. -/
theorem lockstep_twins (layout : Layout) : Lockstep (fun _ => True)
    (fun (s : PostingWriter OutputFile) (d : LexiconWriter OutputFile) s' d' =>
      Twins s s' ∧ LexiconWriter.Twins layout d d')
    fun _ _ place place' _ => place = place' where
  source _ _ _ _ _ _ _ twins := (twins.1.write _).2.1
  write := by
    rintro σ _ may - source - s d s' d' ⟨twins, entries⟩
    obtain ⟨answer, same, after⟩ := twins.write source
    refine ⟨⟨after, entries⟩, ?_⟩
    rw [answer]
    rcases written : PostingSink.write source s with ⟨e | place, source', s₁⟩
    · exact .failed e
    · have works : (PostingWriter.retention OutputFile s.layout).Works s :=
        ⟨⟨twins.isOpen.1, rfl, twins.ready.1.coherent⟩, twins.ready.1.neverFails⟩
      obtain ⟨list, yields, -⟩ := (PostingWriter.retention OutputFile s.layout).write works written
      exact .ok ⟨list, yields, rfl⟩
  add := by
    rintro s d s' d' place - list e ⟨twins, entries⟩ rfl -
    obtain ⟨answer, after⟩ := entries.add (e.at place)
    exact ⟨answer, twins, after⟩

theorem supplies_any : Supplies StoredCursor (fun _ => True) fun _ => True :=
  ⟨⟨fun _ _ => trivial, fun _ => trivial, fun _ => trivial⟩, fun _ _ => trivial⟩

/-- What two merges come to is the same: the same failure, or the same progress and the same bytes
in both files. -/
structure SameOutput
    (left right : Except Failure Progress × FileMerge × LexiconWriter OutputFile) : Prop where
  result : left.1 = right.1
  inverted : ∀ progress, left.1 = .ok progress →
    left.2.1.sink.bits.sink.bytes = right.2.1.sink.bits.sink.bytes
  lexicon : ∀ progress, left.1 = .ok progress → left.2.2.sink.bytes = right.2.2.sink.bytes

theorem SameOutput.of_error {left right : Except Failure Progress × FileMerge ×
    LexiconWriter OutputFile} {f : Failure} (failed : left.1 = .error f)
    (failed' : right.1 = .error f) : SameOutput left right := by
  refine ⟨failed.trans failed'.symm, ?_, ?_⟩
  · intro progress done
    rw [failed] at done
    cases done
  · intro progress done
    rw [failed] at done
    cases done

/-- Closing the sinks of two merges in step fails alike, or the inverted files have the same bytes.
-/
theorem finish_twins {m m' : FileMerge} {lexicon lexicon' : LexiconWriter OutputFile}
    (inStep : Merge.InStep (fun s d s' d' => Twins s s' ∧ LexiconWriter.Twins layout d d')
      m lexicon m' lexicon') :
    (Merge.finish m).1 = (Merge.finish m').1 ∧ ∀ progress, (Merge.finish m).1 = .ok progress →
      (Merge.finish m).2.sink.bits.sink.bytes = (Merge.finish m').2.sink.bits.sink.bytes := by
  obtain ⟨closed, closed', close, close', bytes⟩ := inStep.related.1.close
  have close : PostingSink.close m.sink = (.ok (), closed) := close
  have close' : PostingSink.close m'.sink = (.ok (), closed') := close'
  obtain ⟨finished, sinks⟩ := inStep.finish (by rw [close, close'])
  refine ⟨finished, fun progress done => ?_⟩
  obtain ⟨sink, sink'⟩ := sinks progress done
  rw [sink, sink', close, close']
  exact Array.ext' bytes

/-- Files that are opened alike are merged alike through writers that have written the same, however
their buffers are sized and however often progress is told. -/
theorem sameOutput_run {files files' : RunFiles} (size : files.paths.size = files'.paths.size)
    (opened : (Schedule.start files.paths.size files).1 =
      (Schedule.start files.paths.size files').1)
    (heap : (Schedule.start files.paths.size files).2.2.heap =
      (Schedule.start files.paths.size files').2.2.heap) (o o' : MergeOptions)
    {sink sink' : PostingWriter OutputFile} {lexicon lexicon' : LexiconWriter OutputFile}
    (twins : Twins sink sink') (entries : LexiconWriter.Twins layout lexicon lexicon') :
    SameOutput (run files o sink lexicon) (run files' o' sink' lexicon') := by
  have both := Merge.inStep_start opened heap
    (R := fun s d s' d' => Twins s s' ∧ LexiconWriter.Twins layout d d')
    ⟨twins, entries⟩ o.progressInterval o'.progressInterval
  unfold run
  rw [← size]
  generalize Merge.start files.paths.size files sink o.progressInterval = left at both ⊢
  generalize Merge.start files.paths.size files' sink' o'.progressInterval = right at both ⊢
  obtain ⟨result, after, m⟩ := left
  obtain ⟨result', after', m'⟩ := right
  obtain ⟨started, inStep⟩ := both
  obtain rfl : result = result' := started
  cases result with
  | error e => exact .of_error rfl rfl
  | ok done =>
    have any : m.Each fun _ => True := fun _ _ => trivial
    have both := inStep.rest (lockstep_twins layout) supplies_any any #[] #[]
    dsimp only
    generalize m.rest lexicon #[] = left at both ⊢
    generalize m'.rest lexicon' #[] = right at both ⊢
    obtain ⟨result, terms, m, lexicon⟩ := left
    obtain ⟨result', terms', m', lexicon'⟩ := right
    obtain ⟨rested, inStep⟩ := both
    obtain rfl : result = result' := rested
    have progress : m.progress = m'.progress := inStep.progress
    obtain ⟨twins, entries⟩ := inStep.related
    cases result with
    | error e =>
      have position : m.position = m'.position := twins.position_eq
      dsimp only
      rw [progress, position]
      exact .of_error rfl rfl
    | ok done =>
      obtain ⟨finished, bytes⟩ := finish_twins inStep
      dsimp only
      generalize Merge.finish m = left at finished bytes ⊢
      generalize Merge.finish m' = right at finished bytes ⊢
      obtain ⟨result, m⟩ := left
      obtain ⟨result', m'⟩ := right
      obtain rfl : result = result' := finished
      cases result with
      | error e => exact .of_error rfl rfl
      | ok progress =>
        obtain ⟨count, ended, ended', finish, finish', same⟩ := entries.finish
        dsimp only
        rw [finish, finish']
        exact ⟨rfl, fun _ _ => bytes progress rfl, fun _ _ => Array.ext' same⟩

/-- A merge that does not tell progress comes to what its steps come to. -/
theorem run_eq_ok {files : RunFiles} {o : MergeOptions} {sink : PostingWriter OutputFile}
    {lexicon unfinished finished : LexiconWriter OutputFile} {progress : Progress} {m : FileMerge}
    {count : Nat} (silent : o.progressInterval = 0)
    (merged : mergeRuns files.paths.size files sink lexicon = (.ok progress, m, unfinished))
    (finish : unfinished.finish = (.ok count, finished)) :
    run files o sink lexicon = (.ok progress, m, finished) := by
  unfold mergeRuns at merged
  rcases started : Merge.start files.paths.size files sink 0 with ⟨e | _, after, m₁⟩ <;>
    rw [started] at merged <;> dsimp only at merged
  · cases merged
  rcases rested : m₁.rest lexicon #[] with ⟨e | _, terms, m₂, lexicon₂⟩ <;>
    rw [rested] at merged <;> dsimp only at merged
  · cases merged
  rcases ended : Merge.finish m₂ with ⟨e | progress₂, m₃⟩ <;> rw [ended] at merged <;> cases merged
  rw [← silent] at started
  exact run_eq_ok_iff.mpr ⟨after, m₁, terms, m₂, unfinished, count, started, rested, ended, finish⟩

/-- Files are merged into a new inverted file and a new lexicon of any layout, whatever they hold.
Under options that agree on the verification of ranges this comes to the same failure, or to the
same progress and the same bytes. If it succeeds with verification, it succeeds without, again with
the same bytes. -/
theorem run_of_options (store : FileStore) (paths : Array String) (layout : Layout)
    (o o' : MergeOptions) :
    let outcome := fun o : MergeOptions => run (RunFiles.start store paths o.verifyRanges) o
      (.start o.writeBufferSize .empty layout) (.start o.writeBufferSize .empty layout)
    (o.verifyRanges = o'.verifyRanges → SameOutput (outcome o) (outcome o')) ∧
      (o.verifyRanges = true → o'.verifyRanges = false →
        ∀ progress, (outcome o).1 = .ok progress → SameOutput (outcome o) (outcome o')) := by
  have twins := PostingWriter.twins_start fresh_file o.writeBufferSize o'.writeBufferSize layout
  have entries : LexiconWriter.Twins layout _ _ :=
    LexiconWriter.twins_start fresh_file o.writeBufferSize o'.writeBufferSize
  refine ⟨fun agree => ?_, fun verified unverified progress done => ?_⟩
  · dsimp only
    rw [← agree]
    exact sameOutput_run rfl rfl rfl o o' twins entries
  · -- a merge that succeeds has opened all its files
    have opened : (Schedule.start paths.size (RunFiles.start store paths true)).1 = .ok () := by
      dsimp only at done
      rw [verified] at done
      unfold run Merge.start at done
      have size : (RunFiles.start store paths true).paths.size = paths.size := rfl
      rw [size] at done
      rcases started : Schedule.start paths.size (RunFiles.start store paths true)
        with ⟨e | _, after, s⟩
      · rw [started] at done
        cases done
      · rfl
    have same := Schedule.openRuns_unverified (Prod.ext opened rfl)
    have result : (Schedule.start paths.size (RunFiles.start store paths true)).1 =
        (Schedule.start paths.size (RunFiles.start store paths false)).1 :=
      opened.trans (congrArg (·.1) same).symm
    have heap : (Schedule.start paths.size (RunFiles.start store paths true)).2.2.heap =
        (Schedule.start paths.size (RunFiles.start store paths false)).2.2.heap :=
      (congrArg (·.2.2.heap) same).symm
    have size : (RunFiles.start store paths true).paths.size =
        (RunFiles.start store paths false).paths.size := rfl
    dsimp only
    rw [verified, unverified]
    exact sameOutput_run size result heap o o' twins entries

/-- Two files are merged with verification, one byte at a time and in silence. Through buffers of
seven bytes and with news of each term the same is written, with verification and without. -/
theorem run_of_options_overlapping :
    let outcome := fun o : MergeOptions =>
      run (RunFiles.start overlappingFiles #["a", "b"] o.verifyRanges) o
        (.start o.writeBufferSize .empty ⟨0, false⟩) (.start o.writeBufferSize .empty ⟨0, false⟩)
    (outcome ⟨1, 1, true, 0⟩).1 = .ok ⟨2, 4⟩ ∧
      SameOutput (outcome ⟨1, 1, true, 0⟩) (outcome ⟨3, 7, true, 1⟩) ∧
      SameOutput (outcome ⟨1, 1, true, 0⟩) (outcome ⟨3, 7, false, 1⟩) := by
  have storable := storable_overlappingRuns
  have opens := storable.opens (V := Array UInt8) (by decide) (fun _ => fresh_array)
    read_overlappingFiles true
  obtain ⟨statistics, plan⟩ := storable.mergeable.exists_plan (Nat.le_of_lt storable.terms)
  have lists : (PostingWriter.view OutputFile ⟨0, false⟩).Has (.start 1 .empty ⟨0, false⟩) [] :=
    PostingWriter.has_start 1 fresh_file
  have entries : (LexiconWriter.view OutputFile ⟨0, false⟩).Has (.start 1 .empty ⟨0, false⟩) [] :=
    LexiconWriter.holds_start 1 fresh_file
  obtain ⟨m, unfinished, merged, -, holds⟩ := mergeRuns_of_opens plan opens lists entries
  obtain ⟨finished, finish, -⟩ := LexiconWriter.finish_eq_ok holds
  have progress : Progress.mk (vocabulary overlappingRuns.toList).length
      (total (overlappingRuns.toList.map Run.postingCount)) = ⟨2, 4⟩ := by decide
  rw [progress] at merged
  have done : (run (RunFiles.start overlappingFiles #["a", "b"] true) ⟨1, 1, true, 0⟩
      (.start 1 .empty ⟨0, false⟩) (.start 1 .empty ⟨0, false⟩)).1 = .ok ⟨2, 4⟩ := by
    rw [run_eq_ok rfl merged finish]
  refine ⟨done, ?_, ?_⟩
  · exact (run_of_options overlappingFiles #["a", "b"] ⟨0, false⟩ ⟨1, 1, true, 0⟩
      ⟨3, 7, true, 1⟩).1 rfl
  · exact (run_of_options overlappingFiles #["a", "b"] ⟨0, false⟩ ⟨1, 1, true, 0⟩
      ⟨3, 7, false, 1⟩).2 rfl rfl ⟨2, 4⟩ done

end Command.MergeRequest

end IndexMerge
