import IndexMerge.Command.Dump
import IndexMerge.Proofs.FileStore
import IndexMerge.Proofs.Merge.Indexed

/-!
# Listing what was merged

What the merge command accepts, the dump command can read. The outputs of a merge are found where
they were created (`find_outputs`), and the index that they hold is listed entry by entry
(`dumpLines_of_indexes`). So every merge that succeeds, whatever files it was given, is listed in
full (`dump_of_merge`).
-/

namespace IndexMerge

/-- If something succeeds for each member of a list, it does for all of them in order. -/
theorem mapM_eq_ok {α β ε : Type} {f : α → Except ε β} {xs : List α}
    (each : ∀ x ∈ xs, ∃ y, f x = .ok y) :
    ∃ ys, xs.mapM f = .ok ys ∧ List.Forall₂ (fun x y => f x = .ok y) xs ys := by
  induction xs with
  | nil => exact ⟨[], rfl, .nil⟩
  | cons x xs ih =>
    obtain ⟨y, first⟩ := each x (List.mem_cons_self ..)
    obtain ⟨ys, rest, all⟩ := ih fun x member => each x (List.mem_cons_of_mem _ member)
    refine ⟨y :: ys, ?_, .cons first all⟩
    rw [List.mapM_cons, first, rest]
    rfl

namespace Command

variable {layout : Layout} {inverted lexicon : Array UInt8} {entries : List LexiconEntry}
  {store store' : FileStore}

section Lines

variable {e : LexiconEntry} {k : Nat} {place : BitPosition} {list : List Posting}

/-- The line of an entry begins with its number and ends with the place of its list. -/
theorem entryLine_eq (leads : e.Leads layout inverted k place list) :
    entryLine e = s!"{k}\t{escapeBytes e.term}\tdf={list.length}" ++
      s!"\tfreq={e.statistics.frequency}" ++
      (if e.statistics.fieldFrequencies.isEmpty then ""
        else "\tfields=" ++ Notice.listText e.statistics.fieldFrequencies) ++
      "\t@" ++ place.display := by
  obtain ⟨id, termId, rfl⟩ := leads.number
  unfold entryLine
  dsimp only
  rw [termId, leads.pointer_eq, leads.length_eq]
  simp only [String.append_assoc]
  rfl

/-- The line of an entry that leads to a list shows the list behind it. -/
theorem dumpLine_of_leads (leads : e.Leads layout inverted k place list) :
    dumpLine layout (some inverted) e = .ok (entryLine e ++ postingsText list) := by
  unfold dumpLine
  dsimp only
  rw [leads.pointer_eq, Option.getD_some, leads.read]

end Lines

/-- An index in two files is listed in full. -/
theorem dumpLines_of_indexes (indexes : Indexes layout inverted lexicon entries)
    (small : inverted.size < UInt64.size) {r : DumpRequest} {path : String}
    (given : r.inverted = some path) (lists : store.find path = .ok (.file inverted))
    (terms : store.find r.lexicon = .ok (.file lexicon)) :
    ∃ lines, dumpLines r store = .ok lines ∧ lines.length = entries.length ∧
      ∀ k (hk : k < entries.length), ∃ place list,
        entries[k].Leads layout inverted k place list ∧
        lines[k]? = some (entryLine entries[k] ++ postingsText list) := by
  obtain ⟨reader, started, same, items⟩ := indexes.items_eq small
  have each : ∀ e ∈ entries, ∃ line, dumpLine layout (some inverted) e = .ok line := by
    intro e listed
    obtain ⟨k, hk, rfl⟩ := List.mem_iff_getElem.mp listed
    obtain ⟨place, list, leads⟩ := indexes.leads hk
    exact ⟨_, dumpLine_of_leads leads⟩
  obtain ⟨lines, mapped, all⟩ := mapM_eq_ok each
  refine ⟨lines, ?_, all.length_eq.symm, fun k hk => ?_⟩
  · unfold dumpLines requireFile FileStore.openSource FileStore.readFile
    rw [terms, given]
    dsimp only [bind, Except.bind, Except.mapError]
    rw [started]
    dsimp only [Option.mapM]
    rw [lists]
    dsimp only [Functor.map, Except.map]
    rw [same, items, List.mapM_map]
    exact mapped
  · obtain ⟨place, list, leads⟩ := indexes.leads hk
    have inside : k < lines.length := all.length_eq ▸ hk
    have line := (dumpLine_of_leads leads).symm.trans (all.get hk inside)
    refine ⟨place, list, leads, ?_⟩
    rw [List.getElem?_eq_getElem inside]
    exact congrArg some (Except.ok.inj line).symm

section Outputs

variable {parse : String → Option MergeOptions} {r : MergeRequest} {size : Nat}

/-- What is put where the outputs of a merge were created is found there. -/
theorem find_outputs (created : r.createOutputs size store = (.ok (), store'))
    (inverted lexicon : Array UInt8) :
    let last := (store'.put r.inverted (.file inverted)).put r.lexicon (.file lexicon)
    last.find r.inverted = .ok (.file inverted) ∧ last.find r.lexicon = .ok (.file lexicon) := by
  unfold MergeRequest.createOutputs at created
  split at created
  · cases created
  rename_i first creates
  split at created
  · cases created
  split at created
  · cases created
  rename_i second creates'
  cases created
  exact FileStore.find_of_creates creates creates' inverted lexicon

/-- What a merge goes through when it succeeds: it opens its files, creates its outputs and merges
the files to the end. -/
structure Completes (parse : String → Option MergeOptions) (r : MergeRequest) (store : FileStore)
    (o : MergeOptions) (files : RunFiles) (layout : Layout) (created : FileStore)
    (progress : Progress) (m : MergeRequest.FileMerge) (lexicon : LexiconWriter OutputFile) :
    Prop where
  options : r.options parse store = .ok o
  opens : r.open? o store = .ok (files, layout)
  creates : r.createOutputs o.writeBufferSize store = (.ok (), created)
  fits : files.overflow? o.readBufferSize 0 = none
  runs : MergeRequest.run files o (.start o.writeBufferSize .empty layout)
    (.start o.writeBufferSize .empty layout) = (.ok progress, m, lexicon)

theorem open?_of_probe {o : MergeOptions} {layout : Layout}
    (required : r.runs.forM (requireFile store) = .ok ())
    (probed : (RunFiles.start store r.runs.toArray o.verifyRanges).probeLayout = .ok layout) :
    r.open? o store = .ok (.start store r.runs.toArray o.verifyRanges, layout) := by
  unfold MergeRequest.open?
  rw [required]
  dsimp only [bind, Except.bind]
  rw [probed]
  rfl

/-- A merge that goes through puts what was written where its outputs were created. -/
theorem Completes.outcome {o : MergeOptions} {files : RunFiles} {created : FileStore}
    {progress : Progress} {m : MergeRequest.FileMerge} {terms : LexiconWriter OutputFile}
    (h : Completes parse r store o files layout created progress m terms) :
    (mergeWith parse r store).result = .ok () ∧
      (mergeWith parse r store).lines = r.summary progress m.sink.bits.sink.bytes.size ∧
      (mergeWith parse r store).store =
        (created.put r.inverted (.file m.sink.bits.sink.bytes)).put r.lexicon
          (.file terms.sink.bytes) := by
  unfold mergeWith
  rw [h.options]
  dsimp only [bind, Except.bind]
  rw [h.opens]
  dsimp only [pure, Except.pure]
  rw [h.creates]
  dsimp only
  rw [h.fits]
  dsimp only
  rw [h.runs]
  exact ⟨rfl, rfl, rfl⟩

/-- A merge that succeeds has gone through. -/
theorem completes_of_merge (done : (mergeWith parse r store).result = .ok ()) :
    ∃ o files layout created progress m terms,
      Completes parse r store o files layout created progress m terms := by
  revert done
  unfold mergeWith
  dsimp only
  split
  · nofun
  rename_i o _ _ opened
  obtain ⟨_, options, opened⟩ := of_bind_eq_ok opened
  obtain ⟨⟨files, layout⟩, opens, same⟩ := of_bind_eq_ok opened
  cases same
  split
  · nofun
  rename_i created creates
  split
  · nofun
  rename_i fits
  rcases ran : MergeRequest.run files o (.start o.writeBufferSize .empty layout)
    (.start o.writeBufferSize .empty layout) with ⟨f | progress, m, terms⟩
  · nofun
  · intro _
    exact ⟨o, files, layout, created, progress, m, terms, options, opens, creates, fits, ran⟩

/-- A number is read back from its text. -/
theorem ofDigitChars_toString (n : Nat) : Nat.ofDigitChars 10 (toString n).toList 0 = n := by
  rw [Nat.toString_eq_ofList_toDigits, String.toList_ofList, Nat.ofDigitChars_ten_toDigits]

/-- The counts that are printed tell the progress. -/
theorem summary_inj {progress progress' : Progress} {size' : Nat}
    (same : r.summary progress size = r.summary progress' size') : progress = progress' := by
  unfold MergeRequest.summary at same
  injection same with _ same
  injection same with terms same
  injection same with postings _
  have terms := congrArg (Nat.ofDigitChars 10 ·.toList 0) ((String.append_right_inj _).mp terms)
  have postings :=
    congrArg (Nat.ofDigitChars 10 ·.toList 0) ((String.append_right_inj _).mp postings)
  rw [ofDigitChars_toString, ofDigitChars_toString] at terms postings
  cases progress
  cases progress'
  cases terms
  cases postings
  rfl

end Outputs

/-- Whatever files are merged and under whatever options, however these are parsed: if the merge
succeeds, listing its lexicon with its inverted file succeeds as well, and the printed counts are
right. There is a line for each term that the merge counted. The line with number `k` begins with
`k` and shows the entry of the lexicon with this number and the place of its list. Behind these it
shows as many postings as the entry says, with ascending documents, in each of which the term
occurs. The merge counted just these postings. The inverted file has to have fewer bytes than a word
of 64 bits can count, as any file has. -/
theorem dump_of_merge (parse : String → Option MergeOptions) (r : MergeRequest) (store : FileStore)
    (done : (mergeWith parse r store).result = .ok ())
    (small : ∀ bytes, (mergeWith parse r store).store.read? r.inverted = some bytes →
      bytes.size < UInt64.size) :
    ∃ (progress : Progress) (inverted lexicon : Array UInt8) (reader : LexiconReader)
      (entries : List LexiconEntry) (lines : List String),
      (mergeWith parse r store).lines = r.summary progress inverted.size ∧
      (mergeWith parse r store).store.read? r.inverted = some inverted ∧
      (mergeWith parse r store).store.read? r.lexicon = some lexicon ∧
      LexiconReader.start (.ofList lexicon.toList) = .ok reader ∧
      reader.items = entries.map .ok ∧
      dump ⟨r.lexicon, some r.inverted⟩ (mergeWith parse r store).store =
        .printed lines (mergeWith parse r store).store ∧
      lines.length = progress.terms ∧ entries.length = progress.terms ∧
      total (entries.map fun e => e.statistics.documentFrequency.toNat) = progress.postings ∧
      ∀ k (hk : k < entries.length), ∃ place list,
        entries[k].Leads reader.layout inverted k place list ∧
        lines[k]? = some (s!"{k}\t{escapeBytes entries[k].term}\tdf={list.length}" ++
          s!"\tfreq={entries[k].statistics.frequency}" ++
          (if entries[k].statistics.fieldFrequencies.isEmpty then ""
            else "\tfields=" ++ Notice.listText entries[k].statistics.fieldFrequencies) ++
          "\t@" ++ place.display ++ postingsText list) := by
  obtain ⟨o, files, layout, created, progress, m, written, completes⟩ := completes_of_merge done
  obtain ⟨entries, indexes, rfl⟩ := indexes_of_run completes.runs
  obtain ⟨-, printed, left⟩ := completes.outcome
  have ⟨lists, terms⟩ := find_outputs completes.creates m.sink.bits.sink.bytes written.sink.bytes
  rw [← left] at lists terms
  have read := FileStore.read?_of_find lists
  obtain ⟨reader, started, rfl, items⟩ := indexes.items_eq (small _ read)
  obtain ⟨lines, listed, length, each⟩ := dumpLines_of_indexes
    (r := ⟨r.lexicon, some r.inverted⟩) indexes (small _ read) rfl lists terms
  refine ⟨.ofEntries entries, m.sink.bits.sink.bytes, written.sink.bytes, reader, entries, lines,
    printed, read, FileStore.read?_of_find terms, started, items, ?_, length, rfl, rfl,
    fun k hk => ?_⟩
  · unfold dump
    rw [listed]
  · obtain ⟨place, list, leads, line⟩ := each k hk
    refine ⟨place, list, leads, ?_⟩
    rw [line, entryLine_eq leads]

section Slack

open MergeRequest (FileMerge run_eq_ok_iff)

/-- A store with a run of one term. Behind its two postings are bytes that nobody reads. -/
def slackFiles : FileStore :=
  ⟨[(["a"], .file (RunHeader.encode ⟨0, ⟨0, false⟩, 1, 0, 9, 2⟩ ++
    EntryHead.encode ⟨[97], ⟨2, 5, [], none, none⟩, 18⟩ ++
    Posting.encode ⟨0, false⟩ ⟨1, 1, [], []⟩ ++ Posting.encode ⟨0, false⟩ ⟨4, 3, [], []⟩ ++
    [7, 7]).toArray)]⟩

/-- A request to merge the run in silence. -/
def slackMerge : MergeRequest := ⟨["a"], "x", "y", none, false, some 0⟩

/-- The merge of the run and its lexicon after some steps. -/
def slackSteps (count : Nat) : FileMerge × LexiconWriter OutputFile :=
  Merge.perform (.replicate count .step) (Merge.start 1 (RunFiles.start slackFiles #["a"] true)
    (PostingWriter.start 65536 OutputFile.empty ⟨0, false⟩) 0).2.2 (.start 65536 .empty ⟨0, false⟩)

theorem completes_slackMerge : ∃ created m terms,
    Completes MergeOptions.ofText? slackMerge slackFiles ⟨65536, 65536, true, 0⟩
      (.start slackFiles #["a"] true) ⟨0, false⟩ created ⟨1, 2⟩ m terms ∧
      m.sink.bits.sink.bytes.size = 2 := by
  have started : (Merge.start (C := StoredCursor) 1 (RunFiles.start slackFiles #["a"] true)
      (PostingWriter.start 65536 OutputFile.empty ⟨0, false⟩) 0).1 = .ok () := by decide +kernel
  have steps : ∀ k < 1, (slackSteps k).1.isDone = false ∧
      ((slackSteps k).1.step (slackSteps k).2).1.isOk = true := by
    intro k before
    rw [Nat.lt_one_iff.mp before]
    exact ⟨by decide +kernel, by decide +kernel⟩
  have isDone : (slackSteps 1).1.isDone = true := by decide +kernel
  have finished : (Merge.finish (slackSteps 1).1).1 = .ok ⟨1, 2⟩ := by decide +kernel
  have size : (Merge.finish (slackSteps 1).1).2.sink.bits.sink.bytes.size = 2 := by decide +kernel
  have concluded : (slackSteps 1).2.finish.1 = .ok 1 := by decide +kernel
  obtain ⟨terms, rested⟩ := Merge.rest_of_steps steps isDone #[]
  have created : (slackMerge.createOutputs 65536 slackFiles).1 = .ok () := by decide +kernel
  have required : slackMerge.runs.forM (requireFile slackFiles) = .ok () := by decide +kernel
  have probed : (RunFiles.start slackFiles #["a"] true).probeLayout = .ok ⟨0, false⟩ := by
    decide +kernel
  refine ⟨_, _, (slackSteps 1).2.finish.2,
    ⟨rfl, open?_of_probe required probed, Prod.ext created rfl, by decide +kernel, ?_⟩, size⟩
  exact run_eq_ok_iff.mpr ⟨_, _, terms, _, _, 1, Prod.ext started rfl, rested,
    Prod.ext finished rfl, Prod.ext concluded rfl⟩

/-- The run is merged in spite of the bytes that are left over, and its term is listed in a line. -/
theorem dump_of_merge_slack :
    (merge slackMerge slackFiles).result = .ok () ∧
      ∃ line, dump ⟨"y", some "x"⟩ (merge slackMerge slackFiles).store =
        .printed [line] (merge slackMerge slackFiles).store := by
  obtain ⟨created, m, terms, completes, size⟩ := completes_slackMerge
  obtain ⟨done, told, left⟩ := completes.outcome
  have small : ∀ bytes, (merge slackMerge slackFiles).store.read? "x" = some bytes →
      bytes.size < UInt64.size := by
    intro bytes found
    have there := (find_outputs completes.creates m.sink.bits.sink.bytes terms.sink.bytes).1
    rw [← left] at there
    cases (FileStore.read?_of_find there).symm.trans found
    rw [size]
    decide
  obtain ⟨progress, inverted, lexicon, reader, entries, lines, printed, -, -, -, -, listed, length,
    -⟩ := dump_of_merge _ slackMerge slackFiles done small
  obtain rfl := summary_inj (told.symm.trans printed)
  obtain ⟨line, rfl⟩ := List.length_eq_one_iff.mp length
  exact ⟨done, line, listed⟩

end Slack

end Command

end IndexMerge
