import IndexMerge.Run.Opener

/-!
# Runs on failing devices

Cursors and openers that fail, or that report a wrong run or a wrong document frequency, at chosen
times. Every pattern of such faults is a value of `FaultPlan`.
-/

namespace IndexMerge

/-- Which calls of a cursor fail, and what it reports wrongly. Advances are counted from one. -/
structure FaultPlan where
  failsOpen : Bool
  failsAdvance : Nat → Bool
  failsClose : Bool
  /-- The run that is reported after a number of advances, if not the true one. -/
  runIndex : Nat → Option Nat
  /-- The document frequency that is reported after a number of advances, if not the true one. -/
  documentFrequency : Nat → Option UInt32

/-- The plan without faults. -/
def FaultPlan.none : FaultPlan :=
  ⟨false, fun _ => false, false, fun _ => Option.none, fun _ => Option.none⟩

/-- A cursor with a plan of faults. -/
structure FaultyCursor (C : Type) where
  inner : C
  plan : FaultPlan
  /-- The number of advances that were tried. -/
  advances : Nat

namespace FaultyCursor

variable {C : Type} [RunCursor C]

/-- The reported run. -/
def runIndex (c : FaultyCursor C) : Nat :=
  (c.plan.runIndex c.advances).getD (RunCursor.runIndex c.inner)

/-- The reported statistics. -/
def statistics (c : FaultyCursor C) : TermStatistics :=
  let true := RunCursor.statistics c.inner
  match c.plan.documentFrequency c.advances with
  | some documentFrequency => { true with documentFrequency }
  | none => true

/-- Advances, unless this advance fails. -/
def advance : Attempt Error (FaultyCursor C) Unit := fun c =>
  let c := { c with advances := c.advances + 1 }
  if c.plan.failsAdvance c.advances then (.error (.io "run read" .deviceLost), c)
  else
    let (result, inner) := RunCursor.advance c.inner
    (result, { c with inner })

/-- Closes the cursor, and may fail nevertheless. -/
def close : Attempt Error (FaultyCursor C) Unit := fun c =>
  let (result, inner) := RunCursor.close c.inner
  let c := { c with inner }
  if c.plan.failsClose then (.error (.io "run close" .deviceLost), c) else (result, c)

/-- The next posting. -/
def nextPosting : Attempt Error (FaultyCursor C) (Option Posting) := fun c =>
  let (result, inner) := RunCursor.nextPosting c.inner
  (result, { c with inner })

instance : RunCursor (FaultyCursor C) where
  runIndex := runIndex
  term c := RunCursor.term c.inner
  statistics := statistics
  hasNext c := RunCursor.hasNext c.inner
  advance := advance
  close := close
  openPostings c := { c with inner := RunCursor.openPostings c.inner }
  nextPosting := nextPosting
  entriesLeft c := RunCursor.entriesLeft c.inner
  postingsLeft c := RunCursor.postingsLeft c.inner
  entriesLeft_advance := by
    intro c c' h
    unfold advance at h
    dsimp only at h
    split at h
    · cases h
    · obtain ⟨given, rfl⟩ := Prod.mk.inj h
      exact RunCursor.entriesLeft_advance (Prod.ext given rfl)
  entriesLeft_openPostings c := RunCursor.entriesLeft_openPostings c.inner
  entriesLeft_nextPosting c := RunCursor.entriesLeft_nextPosting c.inner
  postingsLeft_nextPosting := by
    intro c c' p h
    obtain ⟨given, rfl⟩ := Prod.mk.inj h
    exact RunCursor.postingsLeft_nextPosting (Prod.ext given rfl)

end FaultyCursor

/-- An opener whose cursors have plans of faults by position. -/
structure FaultyOpener (F : Type) where
  inner : F
  plans : Nat → FaultPlan

namespace FaultyOpener

variable {F C : Type} [RunOpener F C]

/-- Opens a run, unless that fails; the opener behind is not asked then. -/
def openRun (position : Nat) (opener : FaultyOpener F) :
    Except Error (FaultyCursor C) × List Notice × FaultyOpener F :=
  let plan := opener.plans position
  if plan.failsOpen then (.error (.io "run open" .deviceLost), [], opener)
  else
    let (result, notices, inner) := RunOpener.openRun position opener.inner
    (result.map (⟨·, plan, 0⟩), notices, { opener with inner })

instance : RunOpener (FaultyOpener F) (FaultyCursor C) := ⟨openRun⟩

end FaultyOpener

end IndexMerge
