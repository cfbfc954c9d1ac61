import IndexMerge.Command.Arguments

/-!
# The program

Reads the files that a command line names, carries out its command and writes the new files.
-/

namespace IndexMerge

/-- What a path names on disk. -/
def lookUp (path : String) : IO (Option FileNode) := do
  try
    let found ← IO.FS.realPath path
    if ← found.isDir then return some .directory
    return some (.file (← IO.FS.readBinFile found).data)
  catch _ => return none

/-- Takes what a path names, and the directories on the way to it, into a store. -/
def FileStore.load (store : FileStore) (path : String) : IO FileStore := do
  let steps := path.splitOn "/"
  let mut store := store
  for count in List.range steps.length do
    let part := String.intercalate "/" (steps.take (count + 1))
    if let some node ← lookUp part then store := store.put part node
  return store

/-- The levels that are told, by how often the user asked for more. -/
def Level.shown (verbosity : Nat) : Level → Bool
  | .trace => false
  | .debug => 2 ≤ verbosity
  | .info => 1 ≤ verbosity
  | .warn => true

/-- A failure as it is shown to the user: what was being done, then the causes, numbered when there
are several. -/
def Command.Failure.report (f : Failure) : String :=
  match f.chain with
  | [] => "Error"
  | [text] => s!"Error: {text}"
  | [text, cause] => s!"Error: {text}\n\nCaused by:\n    {cause}"
  | text :: causes =>
    let lines := causes.zipIdx.map fun (cause, number) => s!"    {number}: {cause}"
    s!"Error: {text}\n\nCaused by:\n" ++ String.intercalate "\n" lines

/-- Carries out a command on the files on disk. -/
def Command.Arguments.run (a : Arguments) : IO UInt32 := do
  let before ← (a.request.inputs ++ a.request.outputs).foldlM FileStore.load .empty
  let outcome := a.request.run before
  for notice in outcome.notices do
    if notice.level.shown a.verbosity then IO.eprintln s!"{notice.level.name} {notice.text}"
  for path in a.request.outputs do
    match before.read? path, outcome.store.read? path with
    | none, some bytes => IO.FS.writeBinFile path ⟨bytes⟩
    | _, _ => pure ()
  for line in outcome.lines do
    IO.println line
  match outcome.result with
  | .ok () => return 0
  | .error f =>
    IO.eprintln f.report
    return if f.cause = .overflow then 101 else 1

end IndexMerge

/-- The program. -/
def main (line : List String) : IO UInt32 := do
  match IndexMerge.Command.Arguments.ofList line with
  | .ok a => a.run
  | .error reason =>
    IO.eprintln s!"error: {reason}"
    return 2
