import IndexMerge.Bytes.Buffer
import IndexMerge.FileStore
import IndexMerge.Notice

/-!
# Outcomes of commands

What a command leaves behind: its result, the lines that it prints, what it tells while it works,
and the files. A failure has a cause and says from the outside in what was being done.
-/

namespace IndexMerge.Command

/-- The innermost reason of a failure. -/
inductive Cause where
  | message (text : String)
  | error (e : Error)
  | fault (fault : IoFault)
  | notOptions
  | overflow
  deriving DecidableEq, Repr

/-- The texts of a cause, outermost first. -/
def Cause.chain : Cause → List String
  | .message text => [text]
  | .error e => e.chain
  | .fault f => [f.message]
  | .notOptions => ["not a JSON text of merge options"]
  | .overflow => [Buffer.overflow]

/-- A failure of a command. -/
structure Failure where
  contexts : List String
  cause : Cause
  deriving DecidableEq, Repr

namespace Failure

/-- A failure with an error of the library as its cause. -/
def ofError (context : String) (e : Error) : Failure := ⟨[context], .error e⟩

/-- A failure with a device's report as its cause. -/
def ofFault (context : String) (fault : IoFault) : Failure := ⟨[context], .fault fault⟩

/-- The failure to set a buffer aside. -/
def overflow : Failure := ⟨[], .overflow⟩

/-- The texts of a failure, outermost first. -/
def chain (f : Failure) : List String := f.contexts ++ f.cause.chain

end Failure

/-- What a command leaves behind. -/
structure Outcome where
  result : Except Failure Unit
  lines : List String
  notices : List Notice
  store : FileStore

namespace Outcome

/-- A command that read files and printed lines. -/
def printed (lines : List String) (store : FileStore) : Outcome := ⟨.ok (), lines, [], store⟩

/-- A command that failed before it did anything. -/
def failed (f : Failure) (store : FileStore) : Outcome := ⟨.error f, [], [], store⟩

end Outcome

/-- Refuses a path that does not name a file. -/
def requireFile (store : FileStore) (path : String) : Except Failure Unit :=
  match store.find path with
  | .ok (.file _) => .ok ()
  | .ok .directory => .error ⟨[], .message s!"Path is not a file: {path}"⟩
  | .error _ => .error ⟨[], .message s!"File does not exist: {path}"⟩

end IndexMerge.Command
