import IndexMerge.Bytes.Buffer
import IndexMerge.FileStore
import IndexMerge.Notice
import IndexMerge.Run.InMemory
import IndexMerge.Run.Stored

/-!
# Opening runs

Where the cursors of a merge come from: runs in memory, or run files that have to agree with one
another. Files hold the runs that their order says, share one layout and cover ascending ranges of
documents.
-/

namespace IndexMerge

/-- Something that opens runs by their position. -/
class RunOpener (F : Type) (C : outParam Type) where
  /-- Opens the run at a position and tells about it. -/
  openRun : Nat → F → Except Error C × List Notice × F

/-- Opens runs that are kept in memory. -/
def openInMemory (position : Nat) (runs : Array Run) :
    Except Error MemoryCursor × List Notice × Array Run :=
  match runs[position]? with
  | some run => (.ok (.start run), [], runs)
  | none => (.error (.argument (.noSuchRun position runs.size)), [], runs)

instance : RunOpener (Array Run) MemoryCursor := ⟨openInMemory⟩

/-- A row of run files, and what is known of them from those that were opened. -/
structure RunFiles where
  store : FileStore
  paths : Array String
  /-- Whether ranges of documents have to ascend. -/
  verifyRanges : Bool
  /-- The layout that all files share. -/
  layout : Option Layout
  /-- The position and the last document of the run opened last that has terms. -/
  last : Option (Nat × UInt32)

namespace RunFiles

/-- Files of which none was opened. -/
def start (store : FileStore) (paths : Array String) (verifyRanges : Bool) : RunFiles :=
  ⟨store, paths, verifyRanges, none, none⟩

/-- A cursor over the run in a file. -/
def openFile (store : FileStore) (path : String) : Except Error StoredCursor :=
  match store.openSource path with
  | .ok source => StoredCursor.start path source
  | .error fault => .error (.io path fault)

/-- The header of the run in a file. -/
def readHeader (store : FileStore) (path : String) : Except Error RunHeader := do
  return (← openFile store path).header

/-- The layout of the first file. -/
def probeLayout (files : RunFiles) : Except Error Layout :=
  match files.paths[0]? with
  | some path => do return (← readHeader files.store path).layout
  | none => .error (.argument .noRunFiles)

/-- Refuses a run whose documents do not follow those of the run opened last. -/
def checkRange (files : RunFiles) (position : Nat) (header : RunHeader) : Except Error Unit :=
  match files.last with
  | some (lastRun, last) =>
    if files.verifyRanges && header.firstDoc ≤ last then
      .error (.violation (.overlap position header.firstDoc lastRun last))
    else .ok ()
  | none => .ok ()

/-- Takes note of the header of an opened file, if it agrees with those before it. -/
def accept (position : Nat) (path : String) (header : RunHeader) : Attempt Error RunFiles Unit :=
  fun files =>
    if header.runIndex.toNat ≠ position then
      (.error (.violation (.wrongRun path header.runIndex position)), files)
    else match files.layout.filter (· ≠ header.layout) with
      | some layout => (.error (.format (.layoutDiffers path header.layout layout)), files)
      | none =>
        let files := { files with layout := some header.layout }
        if header.isEmpty then (.ok (), files)
        else match files.checkRange position header with
          | .error e => (.error e, files)
          | .ok () => (.ok (), { files with last := some (position, header.lastDoc) })

/-- What is told of the run at a position until its buffer turns out to be too large, if it does.
Only a file that can be opened is given a buffer. -/
def overflow? (files : RunFiles) (bufferSize position : Nat) : Option (List Notice) :=
  match files.paths[position]? with
  | none => none
  | some path =>
    if !Buffer.fits bufferSize && (files.store.openSource path).isOk then
      some [.openingRun position path]
    else none

/-- Opens the run at a position. -/
def openRun (position : Nat) (files : RunFiles) :
    Except Error StoredCursor × List Notice × RunFiles :=
  match files.paths[position]? with
  | none => (.error (.argument (.noSuchRun position files.paths.size)), [], files)
  | some path =>
    let notices := [Notice.openingRun position path]
    match openFile files.store path with
    | .error e => (.error e, notices, files)
    | .ok cursor =>
      match accept position path cursor.header files with
      | (.ok (), files) => (.ok cursor, notices, files)
      | (.error e, files) => (.error e, notices, files)

instance : RunOpener RunFiles StoredCursor := ⟨openRun⟩

end RunFiles

end IndexMerge
