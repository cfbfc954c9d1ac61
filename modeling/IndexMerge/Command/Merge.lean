import IndexMerge.Command.Outcome
import IndexMerge.InvertedFile.Writer
import IndexMerge.Lexicon.Writer
import IndexMerge.Merge.Loop
import IndexMerge.Merge.Options
import IndexMerge.Text.Size

/-!
# The merge command

Merges run files into an inverted file and a lexicon, both of them new. When it fails, files that
were created stay, with what was delivered to them. How a text gives options is a parameter, since
nothing that is merged depends on it.
-/

namespace IndexMerge.Command

/-- What the merge command is asked to do. -/
structure MergeRequest where
  runs : List String
  inverted : String
  lexicon : String
  config : Option String
  skipsRanges : Bool
  progressInterval : Option Nat
  deriving Repr

/-- The options in a file, or the default ones. -/
def loadOptions (parse : String → Option MergeOptions) (store : FileStore) :
    Option String → Except Failure MergeOptions
  | none => .ok .default
  | some path =>
    let context := s!"Failed to read config file: {path}"
    match store.readFile path with
    | .error fault => .error (.ofFault context fault)
    | .ok bytes =>
      match Utf8.decode? bytes.toList with
      | none => .error (.ofFault context .invalidUtf8)
      | some text =>
        match parse text with
        | some options => .ok options
        | none => .error ⟨[s!"Invalid merge options in {path}"], .notOptions⟩

/-- Prints the options in a file, or the default ones. -/
def showOptions (path : Option String) (store : FileStore) : Outcome :=
  match loadOptions MergeOptions.ofText? store path with
  | .ok options => .printed [options.toJson.compact] store
  | .error f => .failed f store

namespace MergeRequest

/-- The options of a merge with the changes that the request makes. -/
def options (r : MergeRequest) (parse : String → Option MergeOptions) (store : FileStore) :
    Except Failure MergeOptions := do
  let options ← loadOptions parse store r.config
  return { options with
    verifyRanges := options.verifyRanges && !r.skipsRanges
    progressInterval := r.progressInterval.getD options.progressInterval }

/-- The run files of the request and the layout of the first of them. -/
def open? (r : MergeRequest) (options : MergeOptions) (store : FileStore) :
    Except Failure (RunFiles × Layout) := do
  r.runs.forM (requireFile store)
  let files := RunFiles.start store r.runs.toArray options.verifyRanges
  match files.probeLayout with
  | .ok layout => return (files, layout)
  | .error e => throw (.ofError "Failed to read the layout of the first run" e)

/-- Creates the inverted file and the lexicon, which are written through buffers of a size. -/
def createOutputs (r : MergeRequest) (bufferSize : Nat) (store : FileStore) :
    Except Failure Unit × FileStore :=
  match store.create r.inverted with
  | .error fault => (.error (.ofFault s!"Failed to create {r.inverted}" fault), store)
  | .ok store =>
    if !Buffer.fits bufferSize then (.error .overflow, store)
    else match store.create r.lexicon with
    | .error fault => (.error (.ofFault s!"Failed to create {r.lexicon}" fault), store)
    | .ok store => (.ok (), store)

/-- A merge of run files into a new file. -/
abbrev FileMerge : Type := Merge StoredCursor (PostingWriter OutputFile)

/-- Merges the files to the end, then finishes the lexicon. -/
def run (files : RunFiles) (options : MergeOptions) (sink : PostingWriter OutputFile)
    (lexicon : LexiconWriter OutputFile) :
    Except Failure Progress × FileMerge × LexiconWriter OutputFile :=
  match Merge.start files.paths.size files sink options.progressInterval with
  | (.error e, _, m) => (.error (.ofError "Failed to open runs" e), m, lexicon)
  | (.ok (), _, m) =>
    match m.rest lexicon #[] with
    | (.error e, _, m, lexicon) =>
      let context := s!"Merge failed after {m.progress.terms} terms at offset {m.position}"
      (.error (.ofError context e), m.drop, lexicon)
    | (.ok (), _, m, lexicon) =>
      match Merge.finish m with
      | (.error e, m) => (.error (.ofError "Failed to close the inverted file" e), m, lexicon)
      | (.ok progress, m) =>
        match LexiconWriter.finish lexicon with
        | (.error e, lexicon) =>
          (.error (.ofError "Failed to finish the lexicon" e), m, lexicon)
        | (.ok _, lexicon) => (.ok progress, m, lexicon)

/-- What is printed after a merge. -/
def summary (r : MergeRequest) (progress : Progress) (size : Nat) : List String :=
  [s!"Merged {r.runs.length} runs",
    s!"  Terms:          {progress.terms}",
    s!"  Postings:       {progress.postings}",
    s!"  Inverted file:  {r.inverted} ({formatSize size})",
    s!"  Lexicon:        {r.lexicon}"]

end MergeRequest

/-- Merges run files, under options that are parsed in some way. -/
def mergeWith (parse : String → Option MergeOptions) (r : MergeRequest) (store : FileStore) :
    Outcome :=
  let opened := do
    let options ← r.options parse store
    let (files, layout) ← r.open? options store
    return (options, files, layout)
  match opened with
  | .error f => .failed f store
  | .ok (options, files, layout) =>
    let notice := Notice.mergingFiles files.paths.size layout
    let capacity := options.writeBufferSize
    match r.createOutputs capacity store with
    | (.error f, store) => ⟨.error f, [], [notice], store⟩
    | (.ok (), store) =>
      match files.overflow? options.readBufferSize 0 with
      | some notices => ⟨.error .overflow, [], notice :: notices, store⟩
      | none =>
        let (result, m, lexicon) := MergeRequest.run files options
          (.start capacity .empty layout) (.start capacity .empty layout)
        let inverted := m.sink.bits.sink.bytes
        let store :=
          (store.put r.inverted (.file inverted)).put r.lexicon (.file lexicon.sink.bytes)
        let notices := notice :: m.schedule.journal.notices
        match result with
        | .error f => ⟨.error f, [], notices, store⟩
        | .ok progress => ⟨.ok (), r.summary progress inverted.size, notices, store⟩

/-- Merges run files, under options in JSON. -/
def merge (r : MergeRequest) (store : FileStore) : Outcome :=
  mergeWith MergeOptions.ofText? r store

end IndexMerge.Command
