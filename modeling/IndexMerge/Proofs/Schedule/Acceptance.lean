import IndexMerge.Proofs.Merge.Files
import IndexMerge.Proofs.Merge.Truncated
import IndexMerge.Proofs.Schedule.Opening
import IndexMerge.Proofs.Schedule.Untrusted

/-!
# Which run files are accepted

A merge may rely on a file if what its header says fits the files before it and the head of its
first entry can be read (`Reliable`). What is noted while files are opened one after another, the
layout and the last document of one run, is enough to decide this of the next file
(`Tracks.sound_iff`), so runs are opened up to the first file that is not reliable
(`start_of_contents`).
-/

namespace IndexMerge

open Attempt

namespace StoredCursor

/-- Before the first entry no term has to be followed. -/
theorem decodeHead_none (layout : Layout) (source : ByteSource) :
    decodeHead layout none source = EntryHead.decode layout source := by
  unfold decodeHead
  rw [bind_apply]
  rcases EntryHead.decode layout source with ⟨_ | head, rest⟩ <;> rfl

/-- A cursor is before the first entry of the run behind a header. It gets there if the head of the
entry can be read. -/
structure Begins (c : StoredCursor) (header : RunHeader) (rest : ByteSource) : Prop where
  header_eq : c.header = header
  hasNext_eq : c.hasNext = !header.isEmpty
  advance_iff : header.isEmpty = false →
    ((advance c).1 = .ok () ↔ (EntryHead.decode header.layout rest).1.isOk = true)

theorem Begins.start {source rest : ByteSource} {header : RunHeader}
    (decodes : RunHeader.decode source = (.ok header, rest)) (name : String) :
    ∃ c, start name source = .ok c ∧ c.Begins header rest := by
  refine ⟨_, start_of_decode decodes, rfl, ?_, fun some => ?_⟩
  · rw [hasNext, RunHeader.isEmpty, Bool.eq_iff_iff]
    simp [← UInt32.toNat_inj]
  · obtain ⟨remaining, count⟩ : ∃ n, header.termCount.toNat = n + 1 := by
      refine Nat.exists_eq_succ_of_ne_zero fun none => ?_
      rw [RunHeader.isEmpty, beq_eq_false_iff_ne] at some
      exact some (UInt32.toNat_inj.mp none)
    have nothing : Reads (skipPostings [] 0) [] () := reads_skipPostings [] []
    have step : (skipPostings [] 0 >>= fun _ => decodeHead header.layout none) rest =
        EntryHead.decode header.layout rest := by
      rw [bind_apply, nothing rest rest rfl]
      exact decodeHead_none ..
    unfold advance
    dsimp only
    rw [count]
    dsimp only
    rw [if_neg Bool.false_ne_true, step]
    rcases EntryHead.decode header.layout rest with ⟨_ | head, _⟩
    · exact iff_of_false (fun done => by cases done) (fun done => by cases done)
    · exact iff_of_true rfl rfl

end StoredCursor

/-- The header with which the file at a position begins, and the bytes behind it. -/
def headerAt? (contents : List (Array UInt8)) (i : Nat) : Option (RunHeader × ByteSource) :=
  contents[i]?.bind fun bytes =>
    match RunHeader.decode (.ofList bytes.toList) with
    | (.ok header, rest) => some (header, rest)
    | (.error _, _) => none

/-- What a header has to say at a position in a row of files: it has this number, the layout is that
of the first file, and the documents, if they are verified, lie behind those of all files before. -/
structure RunHeader.Fits (contents : List (Array UInt8)) (verify : Bool) (position : Nat)
    (header : RunHeader) : Prop where
  number : header.runIndex.toNat = position
  layout : ∃ first ∈ headerAt? contents 0, header.layout = first.1.layout
  range : verify = true → header.isEmpty = false → ∀ i < position,
    ∀ other ∈ headerAt? contents i, other.1.isEmpty = false → other.1.lastDoc < header.firstDoc

/-- A merge may rely on the file at a position: it begins with a header that fits, and if it has
terms, the head of the first entry is behind the header. -/
def Reliable (contents : List (Array UInt8)) (verify : Bool) (position : Nat) : Prop :=
  ∃ header rest, headerAt? contents position = some (header, rest) ∧
    header.Fits contents verify position ∧
    (header.isEmpty = false → (EntryHead.decode header.layout rest).1.isOk = true)

instance (contents : List (Array UInt8)) (verify : Bool) (position : Nat) (header : RunHeader) :
    Decidable (header.Fits contents verify position) :=
  decidable_of_iff (header.runIndex.toNat = position ∧
      (∃ first ∈ headerAt? contents 0, header.layout = first.1.layout) ∧
      (verify = true → header.isEmpty = false → ∀ i < position,
        ∀ other ∈ headerAt? contents i, other.1.isEmpty = false →
          other.1.lastDoc < header.firstDoc))
    ⟨fun ⟨number, layout, range⟩ => ⟨number, layout, range⟩,
      fun fits => ⟨fits.number, fits.layout, fits.range⟩⟩

instance (contents : List (Array UInt8)) (verify : Bool) (position : Nat) :
    Decidable (Reliable contents verify position) :=
  decidable_of_iff (∃ found ∈ headerAt? contents position, found.1.Fits contents verify position ∧
      (found.1.isEmpty = false → (EntryHead.decode found.1.layout found.2).1.isOk = true))
    ⟨fun ⟨found, here, others⟩ => ⟨found.1, found.2, here, others⟩,
      fun ⟨header, rest, here, others⟩ => ⟨(header, rest), here, others⟩⟩

/-- Whether the file at a position begins with the header of a run that has terms. -/
def hasTerms (contents : List (Array UInt8)) (i : Nat) : Bool :=
  (headerAt? contents i).any fun (header, _) => !header.isEmpty

variable {contents : List (Array UInt8)} {verify : Bool} {position count : Nat}
  {header : RunHeader} {rest : ByteSource}

theorem decode_of_headerAt? (here : headerAt? contents position = some (header, rest)) :
    ∃ bytes, contents[position]? = some bytes ∧
      RunHeader.decode (.ofList bytes.toList) = (.ok header, rest) := by
  obtain ⟨bytes, listed, decodes⟩ := Option.bind_eq_some_iff.mp here
  refine ⟨bytes, listed, ?_⟩
  split at decodes <;> rename_i decoded <;> cases decodes
  exact decoded

theorem headerAt?_of_decode {bytes : Array UInt8} (listed : contents[position]? = some bytes)
    (decodes : RunHeader.decode (.ofList bytes.toList) = (.ok header, rest)) :
    headerAt? contents position = some (header, rest) := by
  rw [headerAt?, listed, Option.bind_some, decodes]

namespace RunFiles

variable {files files' : RunFiles}

/-- The files before a position were opened, and what is noted of them is their layout and the last
document of one of them, which no document of the others is behind. -/
structure Tracks (contents : List (Array UInt8)) (verify : Bool) (position : Nat)
    (files : RunFiles) : Prop where
  stored : ∀ i (hi : i < contents.length), ∃ path, files.paths[i]? = some path ∧
    files.store.read? path = some contents[i]
  verify_eq : files.verifyRanges = verify
  layout : position = 0 ∧ files.layout = none ∨
    ∃ first ∈ headerAt? contents 0, files.layout = some first.1.layout
  last : ∀ noted ∈ files.last, ∃ i < position, ∃ other ∈ headerAt? contents i,
    other.1.isEmpty = false ∧ other.1.lastDoc = noted.2
  behind : verify = true → ∀ i < position, ∀ other ∈ headerAt? contents i,
    other.1.isEmpty = false → ∃ noted ∈ files.last, other.1.lastDoc ≤ noted.2

namespace Tracks

theorem start {store : FileStore} {paths : Array String}
    (stored : ∀ i (hi : i < contents.length), ∃ path, paths[i]? = some path ∧
      store.read? path = some contents[i]) (verify : Bool) :
    (RunFiles.start store paths verify).Tracks contents verify 0 :=
  ⟨stored, rfl, .inl ⟨rfl, rfl⟩, nofun, nofun⟩

variable (h : files.Tracks contents verify position)

include h

/-- The layout that is known is that of the first file. -/
theorem layout_iff (here : headerAt? contents position = some (header, rest)) :
    files.layout.filter (· ≠ header.layout) = none ↔
      ∃ first ∈ headerAt? contents 0, header.layout = first.1.layout := by
  rcases h.layout with ⟨rfl, unknown⟩ | ⟨first, listed, known⟩
  · rw [unknown]
    exact ⟨fun _ => ⟨_, here, rfl⟩, fun _ => rfl⟩
  · rw [known, Option.filter_some]
    constructor
    · intro same
      refine ⟨first, listed, ?_⟩
      by_contra differ
      simp [Ne.symm differ] at same
    · rintro ⟨other, listed', same⟩
      obtain rfl := Option.some.inj (listed.symm.trans listed')
      simp [same]

/-- It is enough that the documents lie behind the last one that is noted, as this is one of those
with which they have to be compared and none of these is behind it. -/
theorem checkRange_iff (header : RunHeader) :
    files.checkRange position header = .ok () ↔
      (verify = true → ∀ i < position, ∀ other ∈ headerAt? contents i,
        other.1.isEmpty = false → other.1.lastDoc < header.firstDoc) := by
  unfold checkRange
  rw [h.verify_eq]
  constructor
  · intro checked verified i less other listed some
    obtain ⟨noted, found, le⟩ := h.behind verified i less other listed some
    rw [show files.last = _ from found] at checked
    dsimp only at checked
    split at checked
    · cases checked
    · rename_i apart
      rw [verified, Bool.true_and, decide_eq_true_iff] at apart
      exact UInt32.lt_of_le_of_lt le (UInt32.not_le.mp apart)
  · intro apart
    cases found : files.last with
    | none => rfl
    | some noted =>
      dsimp only
      split
      · rename_i overlap
        obtain ⟨verified, le⟩ := Bool.and_eq_true_iff.mp overlap
        obtain ⟨i, less, other, listed, some, same⟩ := h.last noted found
        have less := apart verified i less other listed some
        rw [same] at less
        exact absurd (of_decide_eq_true le) (UInt32.not_le.mpr less)
      · rfl

/-- A header is accepted just if it fits. -/
theorem accept_iff (here : headerAt? contents position = some (header, rest)) (path : String) :
    (accept position path header files).1 = .ok () ↔ header.Fits contents verify position := by
  unfold RunFiles.accept
  by_cases number : header.runIndex.toNat = position
  · rw [if_neg (not_not_intro number)]
    cases known : files.layout.filter (· ≠ header.layout) with
    | some other =>
      refine iff_of_false nofun fun fits => ?_
      rw [(h.layout_iff here).mpr fits.layout] at known
      cases known
    | none =>
      have shared := (h.layout_iff here).mp known
      have same : checkRange { files with layout := some header.layout } position header =
        files.checkRange position header := rfl
      dsimp only
      cases empty : header.isEmpty with
      | true =>
        refine iff_of_true rfl ⟨number, shared, fun _ some => ?_⟩
        rw [empty] at some
        cases some
      | false =>
        rw [if_neg Bool.false_ne_true, same]
        cases checked : files.checkRange position header with
        | error e =>
          refine iff_of_false nofun fun fits => ?_
          rw [(h.checkRange_iff header).mpr fun verified => fits.range verified empty] at checked
          cases checked
        | ok _ =>
          exact iff_of_true rfl
            ⟨number, shared, fun verified _ => (h.checkRange_iff header).mp checked verified⟩
  · rw [if_pos number]
    exact iff_of_false nofun fun fits => number fits.number

/-- A header that is accepted is noted. -/
theorem accept (here : headerAt? contents position = some (header, rest)) {path : String}
    (accepted : RunFiles.accept position path header files = (.ok (), files')) :
    files'.Tracks contents verify (position + 1) := by
  have fits := (h.accept_iff here path).mp (congrArg Prod.fst accepted)
  obtain ⟨_, -, decodes⟩ := decode_of_headerAt? here
  have range := RunHeader.range_of_decode decodes
  obtain ⟨first, listed, same⟩ := fits.layout
  unfold RunFiles.accept at accepted
  rw [if_neg (not_not_intro fits.number), (h.layout_iff here).mpr fits.layout] at accepted
  dsimp only at accepted
  split at accepted
  · rename_i empty
    cases accepted
    -- no range is compared with that of an empty run, so the old one is still enough
    refine ⟨h.stored, h.verify_eq, .inr ⟨first, listed, congrArg some same⟩, ?_, ?_⟩
    · intro noted found
      obtain ⟨i, less, others⟩ := h.last noted found
      exact ⟨i, Nat.lt_succ_of_lt less, others⟩
    · intro verified i less other found some
      rcases Nat.lt_succ_iff_lt_or_eq.mp less with less | rfl
      · exact h.behind verified i less other found some
      · obtain rfl := Option.some.inj (here.symm.trans found)
        rw [empty] at some
        cases some
  · rename_i some
    split at accepted <;> cases accepted
    -- the range that is noted now ends behind all others, as it begins behind them
    refine ⟨h.stored, h.verify_eq, .inr ⟨first, listed, congrArg Option.some same⟩, ?_, ?_⟩
    · rintro _ ⟨⟩
      exact ⟨position, Nat.lt_succ_self _, _, here, Bool.eq_false_iff.mpr some, rfl⟩
    · intro verified i less other found more
      refine ⟨_, rfl, ?_⟩
      rcases Nat.lt_succ_iff_lt_or_eq.mp less with less | rfl
      · have apart := fits.range verified (Bool.eq_false_iff.mpr some) i less other found more
        exact UInt32.le_trans (UInt32.le_of_lt apart) range
      · obtain rfl := Option.some.inj (here.symm.trans found)
        exact UInt32.le_refl _

/-- Opening the next file fails if its header cannot be read or does not fit. Otherwise the cursor
is before its first entry, and the header is noted. -/
theorem openRun_cases (lt : position < contents.length) :
    (∃ e, (RunFiles.openRun position files).1 = .error e ∧ ¬Reliable contents verify position) ∨
    ∃ header rest cursor notices files', headerAt? contents position = some (header, rest) ∧
      header.Fits contents verify position ∧ cursor.Begins header rest ∧
      RunFiles.openRun position files = (.ok cursor, notices, files') ∧
      files'.Tracks contents verify (position + 1) := by
  obtain ⟨path, listed, read⟩ := h.stored position lt
  have bytes : contents[position]? = some contents[position] := List.getElem?_eq_getElem lt
  unfold RunFiles.openRun openFile
  rw [listed]
  dsimp only
  rw [FileStore.openSource_eq_ok read]
  dsimp only
  rcases decoded : RunHeader.decode (.ofList contents[position].toList) with ⟨e | header, rest⟩
  · refine .inl ⟨e.within path, by rw [StoredCursor.start, decoded], ?_⟩
    rintro ⟨header, rest, here, -⟩
    obtain ⟨_, same, decodes⟩ := decode_of_headerAt? here
    obtain rfl := Option.some.inj (bytes.symm.trans same)
    rw [decoded] at decodes
    cases decodes
  · have here := headerAt?_of_decode bytes decoded
    obtain ⟨cursor, started, begins⟩ := StoredCursor.Begins.start decoded path
    have iff := h.accept_iff here path
    rw [started]
    dsimp only
    rw [begins.header_eq]
    rcases accepted : RunFiles.accept position path header files with ⟨e | _, files'⟩
    · refine .inl ⟨e, rfl, ?_⟩
      rintro ⟨_, _, here', fits, -⟩
      cases here.symm.trans here'
      rw [accepted] at iff
      cases iff.mpr fits
    · exact .inr ⟨header, rest, cursor, _, files', here, iff.mp (congrArg Prod.fst accepted),
        begins, rfl, h.accept here accepted⟩

/-- The next run has no fault just if its file is reliable. -/
theorem sound_iff (lt : position < contents.length) :
    (∀ e, ¬Schedule.Fault position (RunFiles.openRun position files).1 e) ↔
      Reliable contents verify position := by
  rcases h.openRun_cases lt with ⟨e, failed, unreliable⟩ | ⟨header, rest, cursor, _, _, opened⟩
  · rw [failed]
    exact iff_of_false (fun sound => sound e (.opening e)) unreliable
  · obtain ⟨here, fits, begins, opened, -⟩ := opened
    have number : RunCursor.runIndex cursor = position :=
      (congrArg (·.runIndex.toNat) begins.header_eq).trans fits.number
    have more : RunCursor.hasNext cursor = !header.isEmpty := begins.hasNext_eq
    rw [opened]
    constructor
    · intro sound
      refine ⟨header, rest, here, fits, fun some => (begins.advance_iff some).mp ?_⟩
      rw [some] at more
      cases advanced : (StoredCursor.advance cursor).1 with
      | error e => exact absurd (.advancing number more advanced) (sound e)
      | ok _ => rfl
    · rintro ⟨_, _, here', -, entry⟩ e fault
      cases here.symm.trans here'
      cases fault with
      | number differ => exact differ number
      | closing _ _ failed => cases failed
      | advancing _ next failed =>
        have some : header.isEmpty = false := by rwa [more, Bool.not_eq_true'] at next
        have failed : (StoredCursor.advance cursor).1 = .error e := failed
        rw [(begins.advance_iff some).mpr (entry some)] at failed
        cases failed

/-- A file that is reliable is opened by a cursor, which is scheduled if the file has terms. -/
theorem next_of_reliable (lt : position < contents.length)
    (reliable : Reliable contents verify position) :
    (RunFiles.openRun position files).2.2.Tracks contents verify (position + 1) ∧
      (Schedule.first? position (RunFiles.openRun position files).1).map Lease.position =
        Option.guard (hasTerms contents) position := by
  rcases h.openRun_cases lt with ⟨_, _, unreliable⟩ | ⟨header, rest, cursor, _, _, opened⟩
  · exact absurd reliable unreliable
  · obtain ⟨here, -, begins, opened, tracks⟩ := opened
    obtain ⟨_, _, here', -, entry⟩ := reliable
    cases here.symm.trans here'
    have more : RunCursor.hasNext cursor = !header.isEmpty := begins.hasNext_eq
    rw [opened]
    refine ⟨tracks, ?_⟩
    unfold Schedule.first? Lease.next? Option.guard hasTerms
    dsimp only
    rw [here, Option.any_some, more]
    cases empty : header.isEmpty with
    | true => rfl
    | false =>
      have advanced := (begins.advance_iff empty).mpr (entry empty)
      rcases stepped : RunCursor.advance cursor with ⟨e | _, next⟩
      · cases (congrArg Prod.fst stepped).symm.trans advanced
      · rfl

end Tracks

end RunFiles

namespace Schedule

variable {store : FileStore} {paths : Array String}

/-- While files are reliable, what is noted of them is known. -/
theorem tracks_openerBefore {files : RunFiles} (tracks : files.Tracks contents verify 0)
    (le : position ≤ contents.length)
    (reliable : ∀ earlier < position, Reliable contents verify earlier) :
    (openerBefore files position).Tracks contents verify position := by
  induction position with
  | zero => exact tracks
  | succ position ih =>
    have before := ih (Nat.le_of_succ_le le) fun earlier less =>
      reliable earlier (Nat.lt_succ_of_lt less)
    exact (before.next_of_reliable le (reliable position (Nat.lt_succ_self _))).1

/-- The first runs have no faults just if the first files are reliable. What is noted before a file
is only known while all files before it are, so this is not shown for each file by itself. -/
theorem sound_iff_reliable {files : RunFiles} (tracks : files.Tracks contents verify 0)
    (le : count ≤ contents.length) :
    (∀ i < count, Sound files i) ↔ ∀ i < count, Reliable contents verify i := by
  induction count with
  | zero => exact iff_of_true nofun nofun
  | succ count ih =>
    rw [Nat.forall_lt_succ_right, Nat.forall_lt_succ_right, ih (Nat.le_of_succ_le le)]
    exact and_congr_right fun before =>
      (tracks_openerBefore tracks (Nat.le_of_succ_le le) before).sound_iff le

/-- Of files that are reliable, those that have terms are scheduled. -/
theorem positions_of_reliable {files : RunFiles} (tracks : files.Tracks contents verify 0)
    (le : count ≤ contents.length) (reliable : ∀ i < count, Reliable contents verify i) :
    ((List.range count).filterMap fun i => first? i (answer files i)).map Lease.position =
      (List.range count).filter (hasTerms contents) := by
  rw [List.map_filterMap, ← List.filterMap_eq_filter]
  refine List.filterMap_congr fun i listed => ?_
  have lt := List.mem_range.mp listed
  have inside := Nat.lt_of_lt_of_le lt le
  have known := tracks_openerBefore tracks (Nat.le_of_lt inside)
    fun earlier less => reliable earlier (Nat.lt_trans less lt)
  exact (known.next_of_reliable inside (reliable i lt)).2

/-- What is scheduled of a file is a cursor over this file at its first entry. -/
theorem cursor_of_first {files : RunFiles} {lease : Lease StoredCursor}
    (first : first? position (answer files position) = some lease) :
    ∃ path cursor, files.paths[lease.position]? = some path ∧
      RunFiles.openFile files.store path = .ok cursor ∧
      RunCursor.advance cursor = (.ok (), lease.cursor) := by
  obtain ⟨cursor, opened, rfl, advanced⟩ := first?_eq_some first
  obtain ⟨path, found, opened⟩ := RunFiles.openFile_of_openRun opened
  obtain ⟨store, paths⟩ := RunFiles.store_openerBefore files lease.position
  rw [store] at opened
  rw [paths] at found
  exact ⟨path, cursor, found, opened, advanced⟩

/-- Starting with files succeeds just if they are all reliable. Otherwise it fails at the first one
that is not, and names it. If it succeeds, the files that have terms are scheduled, each at its
first entry. -/
theorem start_of_contents
    (stored : ∀ i (hi : i < contents.length), ∃ path, paths[i]? = some path ∧
      store.read? path = some contents[i])
    (le : count ≤ contents.length) (verify : Bool) :
    let (result, _, s) := start count (RunFiles.start store paths verify)
    (result = .ok () ↔ ∀ i < count, Reliable contents verify i) ∧
    (∀ i < count, ¬Reliable contents verify i →
      (∀ earlier < i, Reliable contents verify earlier) →
      ∃ cause, result = .error (.initialization i cause)) ∧
    (result = .ok () →
      (s.heap.toList.map Lease.position).Perm ((List.range count).filter (hasTerms contents)) ∧
      ∀ lease ∈ s.heap.toList, ∃ path cursor, paths[lease.position]? = some path ∧
        RunFiles.openFile store path = .ok cursor ∧
        RunCursor.advance cursor = (.ok (), lease.cursor)) := by
  have tracks := RunFiles.Tracks.start stored verify
  have succeeds := (start_eq_ok_iff count (RunFiles.start store paths verify)).trans
    (sound_iff_reliable tracks le)
  rcases started : start count (RunFiles.start store paths verify) with ⟨result, after, s⟩
  rw [started] at succeeds
  refine ⟨succeeds, fun i lt unreliable before => ?_, fun done => ?_⟩
  · have inside := Nat.lt_of_lt_of_le lt le
    have sound := (sound_iff_reliable tracks (Nat.le_of_lt inside)).mpr before
    have known := tracks_openerBefore tracks (Nat.le_of_lt inside) before
    obtain ⟨e, fault⟩ : ∃ e, Fault i (answer (RunFiles.start store paths verify) i) e := by
      by_contra none
      exact unreliable ((known.sound_iff inside).mp (not_exists.mp none))
    obtain ⟨_, failed, -⟩ := start_of_fault lt fault sound
    cases started.symm.trans failed
    exact ⟨e, rfl⟩
  · have reliable := succeeds.mp done
    obtain ⟨_, ended, heap, -⟩ := start_of_sound ((sound_iff_reliable tracks le).mpr reliable)
    cases started.symm.trans ended
    have positions := positions_of_reliable tracks le reliable
    refine ⟨(heap.map Lease.position).trans (.of_eq positions), fun lease listed => ?_⟩
    obtain ⟨i, -, first⟩ := List.mem_filterMap.mp (heap.mem_iff.mp listed)
    exact cursor_of_first first

/-- A file with a run of one term, with a posting at its first document, or of none. -/
def smallFile (index : UInt32) (range : Option (UInt32 × UInt32)) : Array UInt8 :=
  let layout : Layout := ⟨0, false⟩
  match range with
  | none => (RunHeader.encode ⟨index, layout, 0, 0, 0, 0⟩).toArray
  | some (first, last) =>
    let posting := Posting.encode layout ⟨first, 1, [], []⟩
    (RunHeader.encode ⟨index, layout, 1, first, last, 1⟩ ++
      EntryHead.encode ⟨[97], ⟨1, 1, [], none, none⟩, posting.length⟩ ++ posting).toArray

/-- Three files, of which the second one has no terms. The last document of the first one is the
first document of the third one. -/
def touchingFiles : List (Array UInt8) :=
  [smallFile 0 (some (1, 5)), smallFile 1 none, smallFile 2 (some (5, 9))]

/-- The three files can be merged unless ranges are verified. Then the third one is refused,
although there is no document in the file right before it. -/
theorem start_of_contents_touching :
    let store : FileStore := ⟨[(["a"], .file touchingFiles[0]), (["b"], .file touchingFiles[1]),
      (["c"], .file touchingFiles[2])]⟩
    let files := RunFiles.start store #["a", "b", "c"]
    ((start 3 (files false)).1 = .ok () ∧
      ((start 3 (files false)).2.2.heap.toList.map Lease.position).Perm [0, 2]) ∧
    ∃ cause, (start 3 (files true)).1 = .error (.initialization 2 cause) := by
  intro store files
  have stored : ∀ i (hi : i < touchingFiles.length), ∃ path, #["a", "b", "c"][i]? = some path ∧
      store.read? path = some touchingFiles[i] := by
    intro i hi
    match i, hi with
    | 0, _ => exact ⟨"a", rfl, FileStore.read?_of_name (by decide +kernel) rfl⟩
    | 1, _ => exact ⟨"b", rfl, FileStore.read?_of_name (by decide +kernel) rfl⟩
    | 2, _ => exact ⟨"c", rfl, FileStore.read?_of_name (by decide +kernel) rfl⟩
  obtain ⟨accepted, -, scheduled⟩ := start_of_contents stored (Nat.le_refl 3) false
  have done := accepted.mpr (by decide)
  refine ⟨⟨done, (scheduled done).1⟩, ?_⟩
  exact (start_of_contents stored (Nat.le_refl 3) true).2.1 2 (by decide) (by decide) (by decide)

end Schedule

end IndexMerge
