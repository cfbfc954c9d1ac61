import IndexMerge.FileStore
import IndexMerge.Run.Record

/-!
# Run files

Stores a run under a path that names nothing yet.
-/

namespace IndexMerge

/-- Stores a run in a new file. A file that was created stays when the run cannot be stored. -/
def Run.save (run : Run) (path : String) (store : FileStore) : Except Error Unit × FileStore :=
  match store.create path with
  | .error fault => (.error (.io path fault), store)
  | .ok store =>
    let (spilled, file) := run.spill OutputFile.empty
    match spilled with
    | .error e => (.error e, store.put path (.file file.bytes))
    | .ok () =>
      let (sealed, file) := ByteSink.finish file
      let store := store.put path (.file file.bytes)
      match sealed with
      | .error fault => (.error (.io path fault), store)
      | .ok () => (.ok (), store)

end IndexMerge
