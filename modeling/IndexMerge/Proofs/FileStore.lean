import IndexMerge.FileStore

/-!
# Finding files

What is put at a place is there, and all other places are as they were (`node?_putAt_of_ne`). A path
at which a file can be created leads through directories to a place where there is nothing
(`Vacant`), so whatever is put there later is found under the path, as long as these directories are
kept (`Vacant.find_eq`). They are kept when another file is created (`find_of_creates`).
-/

namespace IndexMerge

/-- Of two steps that succeed together each does. -/
theorem of_bind_eq_ok {ε α β : Type} {first : Except ε α} {second : α → Except ε β} {b : β}
    (done : (first >>= second) = .ok b) : ∃ a, first = .ok a ∧ second a = .ok b := by
  cases first with
  | error e => cases done
  | ok a => exact ⟨a, rfl, done⟩

namespace FileStore

variable {store store' : FileStore} {place found : Place} {node : FileNode} {path : String}
  {names : List String}

theorem isGiven_of_absent (absent : store.node? place = none) : place.isGiven = false := by
  unfold node? at absent
  split at absent
  · cases absent
  · exact Bool.eq_false_iff.mpr ‹_›

theorem node?_putAt (store : FileStore) (node : FileNode) (new : place.isGiven = false) :
    (store.putAt place node).node? place = some node := by
  unfold node? putAt
  rw [new, if_neg Bool.false_ne_true]
  simp

theorem node?_putAt_of_ne (store : FileStore) (node : FileNode) (other : found ≠ place) :
    (store.putAt place node).node? found = store.node? found := by
  have rest : ((place, node) :: store.nodes.filter (·.1 != place)).find? (·.1 == found) =
      store.nodes.find? (·.1 == found) := by
    rw [List.find?_cons_of_neg (by simpa using other.symm), List.find?_filter]
    congr 1
    funext entry
    by_cases here : entry.1 = found
    · simp [here, other]
    · simp [here]
  unfold node? putAt
  by_cases given : found.isGiven = true
  · rw [if_pos given, if_pos given]
  · rw [if_neg given, if_neg given]
    exact congrArg (Option.map (·.2)) rest

/-- Directories of the first store are directories of the second one. -/
def KeepsDirectories (store store' : FileStore) : Prop :=
  ∀ place, store.node? place = some .directory → store'.node? place = some .directory

theorem KeepsDirectories.trans {third : FileStore} (first : KeepsDirectories store store')
    (second : KeepsDirectories store' third) : KeepsDirectories store third :=
  fun place here => second place (first place here)

/-- A directory is only lost if something is put in its place. -/
theorem keepsDirectories_put (node : FileNode)
    (other : store.node? (Path.place path) ≠ some .directory) :
    KeepsDirectories store (store.put path node) := by
  intro found here
  have elsewhere : found ≠ Path.place path := by
    rintro rfl
    exact other here
  rw [put, node?_putAt_of_ne store node elsewhere]
  exact here

/-- A walk to a directory goes through directories, so it is the same when these are kept. -/
theorem walk_of_keepsDirectories (kept : KeepsDirectories store store')
    (walked : store.walk place .directory names = .ok .directory) :
    store'.walk place .directory names = .ok .directory := by
  induction names generalizing place with
  | nil => rfl
  | cons name names ih =>
    unfold walk at walked ⊢
    dsimp only at walked ⊢
    split
    · rename_i long
      rw [if_pos long] at walked
      cases walked
    · rename_i short
      rw [if_neg short] at walked
      cases here : store.node? (place.enter name) with
      | none =>
        rw [here] at walked
        cases walked
      | some next =>
        rw [here] at walked
        cases next with
        | file bytes => cases names <;> cases walked
        | directory =>
          rw [kept _ here]
          exact ih walked

/-- Behind a walk to a directory a name leads to what is in the directory. -/
theorem walk_concat {name : String} (walked : store.walk place .directory names = .ok .directory)
    (short : name.utf8ByteSize ≤ Path.maxNameLength)
    (here : store.node? ((names.foldl .enter place).enter name) = some node) :
    store.walk place .directory (names ++ [name]) = .ok node := by
  induction names generalizing place with
  | nil =>
    rw [List.nil_append]
    unfold walk
    dsimp only
    rw [if_neg (Nat.not_lt.mpr short)]
    rw [List.foldl_nil] at here
    rw [here]
    rfl
  | cons next names ih =>
    rw [List.cons_append]
    unfold walk at walked ⊢
    dsimp only at walked ⊢
    split at walked
    · cases walked
    · rename_i fits
      rw [if_neg fits]
      cases there : store.node? (place.enter next) with
      | none =>
        rw [there] at walked
        cases walked
      | some node' =>
        rw [there] at walked
        cases node' with
        | file bytes => cases names <;> cases walked
        | directory => exact ih walked here

theorem read?_of_find {bytes : Array UInt8} (found : store.find path = .ok (.file bytes)) :
    store.read? path = some bytes := by
  unfold read?
  rw [found]

/-- A path of a single name leads to what lies there in the working directory. -/
theorem read?_of_name {name : String} {bytes : Array UInt8}
    (single : Path.check name = .ok () ∧ Path.start name = .here ∧ Path.names name = [name] ∧
      name.utf8ByteSize ≤ Path.maxNameLength)
    (here : store.node? (Place.here.enter name) = some (.file bytes)) :
    store.read? name = some bytes := by
  obtain ⟨isPath, relative, alone, short⟩ := single
  have entered : store.walk .here .directory [] = .ok .directory := rfl
  apply read?_of_find
  unfold find
  rw [isPath, relative, alone]
  exact walk_concat entered short here

/-- A path leads through directories to a place where there is nothing. -/
structure Vacant (store : FileStore) (path : String) : Prop where
  isPath : Path.check path = .ok ()
  leads : ∃ names last, Path.names path = names ++ [last] ∧
    last.utf8ByteSize ≤ Path.maxNameLength ∧
    store.walk (Path.start path) .directory names = .ok .directory
  absent : store.node? (Path.place path) = none

namespace Vacant

theorem put (vacant : store.Vacant path) (node : FileNode) :
    (store.put path node).node? (Path.place path) = some node :=
  node?_putAt store node (isGiven_of_absent vacant.absent)

/-- What is put where there was nothing is found. -/
theorem find_eq (vacant : store.Vacant path) (kept : KeepsDirectories store store')
    (here : store'.node? (Path.place path) = some node) : store'.find path = .ok node := by
  obtain ⟨names, last, split, short, walked⟩ := vacant.leads
  rw [Path.place, split, List.foldl_append] at here
  unfold find
  rw [vacant.isPath, split]
  exact walk_concat (walk_of_keepsDirectories kept walked) short here

end Vacant

/-- The names before the last one, which is not empty. -/
theorem names_of_split {last : String} (split : Path.split? path = some (names, last))
    (noSlash : Path.endsInSlash path = false) : Path.names path = names ++ [last] := by
  unfold Path.split? at split
  unfold Path.endsInSlash at noSlash
  rw [List.getLast?_eq_head?_reverse] at noSlash
  cases reversed : (Path.names path).reverse with
  | nil =>
    rw [reversed] at split
    cases split
  | cons first others =>
    rw [reversed] at split noSlash
    have stop : (first :: others).dropWhile (· == "") = first :: others :=
      List.dropWhile_cons_of_neg (by simpa using noSlash)
    rw [stop] at split
    cases split
    rw [← List.reverse_eq_cons_iff]
    exact reversed

/-- A file is created only where there is nothing. -/
theorem vacant_of_create (created : store.create path = .ok store') :
    store.Vacant path ∧ store' = store.put path (.file #[]) := by
  obtain ⟨_, isPath, created⟩ := of_bind_eq_ok created
  cases split : Path.split? path with
  | none =>
    rw [split] at created
    cases created
  | some both =>
    obtain ⟨names, last⟩ := both
    rw [split] at created
    obtain ⟨node, walked, created⟩ := of_bind_eq_ok created
    cases node with
    | file bytes => cases created
    | directory =>
      dsimp only at created
      split at created
      · cases created
      split at created
      · cases created
      rename_i noSlash
      split at created
      · cases created
      rename_i short
      split at created
      · cases created
      rename_i absent
      cases created
      have names := names_of_split split (Bool.eq_false_iff.mpr noSlash)
      refine ⟨⟨isPath, ⟨_, last, names, Nat.le_of_not_lt short, walked⟩, ?_⟩, rfl⟩
      exact Option.not_isSome_iff_eq_none.mp absent

/-- Two files are created one after another, so at two places where there was nothing. What is put
there later is found under both paths. -/
theorem find_of_creates {path' : String} {second : FileStore}
    (created : store.create path = .ok store') (created' : store'.create path' = .ok second)
    (bytes bytes' : Array UInt8) :
    let last := (second.put path (.file bytes)).put path' (.file bytes')
    last.find path = .ok (.file bytes) ∧ last.find path' = .ok (.file bytes') := by
  obtain ⟨vacant, rfl⟩ := vacant_of_create created
  obtain ⟨vacant', rfl⟩ := vacant_of_create created'
  let first := store.put path (.file #[])
  let second := first.put path' (.file #[])
  let third := second.put path (.file bytes)
  let last := third.put path' (.file bytes')
  have apart : Path.place path ≠ Path.place path' := by
    intro same
    have there := vacant.put (.file #[])
    rw [same, vacant'.absent] at there
    cases there
  have there : second.node? (Path.place path) = some (.file #[]) :=
    (node?_putAt_of_ne first _ apart).trans (vacant.put _)
  have there' : third.node? (Path.place path') = some (.file #[]) :=
    (node?_putAt_of_ne second _ apart.symm).trans (vacant'.put _)
  have toFirst : KeepsDirectories store first := by
    refine keepsDirectories_put _ ?_
    rw [vacant.absent]
    nofun
  have toSecond : KeepsDirectories first second := by
    refine keepsDirectories_put _ ?_
    rw [vacant'.absent]
    nofun
  have toThird : KeepsDirectories second third := by
    refine keepsDirectories_put _ ?_
    rw [there]
    nofun
  have toLast : KeepsDirectories third last := by
    refine keepsDirectories_put _ ?_
    rw [there']
    nofun
  have kept : KeepsDirectories first last := toSecond.trans (toThird.trans toLast)
  refine ⟨vacant.find_eq (toFirst.trans kept) ?_, vacant'.find_eq kept ?_⟩
  · exact (node?_putAt_of_ne third _ apart).trans
      (node?_putAt second _ (isGiven_of_absent vacant.absent))
  · exact node?_putAt third _ (isGiven_of_absent vacant'.absent)

end FileStore

end IndexMerge
