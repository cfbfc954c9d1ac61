import IndexMerge.Error
import IndexMerge.Bits.Position

/-!
# Notices

What a merge tells about itself while it works, by kind. `Notice.level` and `Notice.text` say how
a notice is logged.
-/

namespace IndexMerge

/-- How much a notice matters. -/
inductive Level where
  | trace
  | debug
  | info
  | warn
  deriving DecidableEq, Repr

/-- The name of a level in a log. -/
def Level.name : Level → String
  | trace => "TRACE"
  | debug => "DEBUG"
  | info => "INFO"
  | warn => "WARN"

/-- Something worth telling. -/
inductive Notice where
  | openingRun (run : Nat) (path : String)
  | runEmpty (run : Nat)
  | runExhausted (run : Nat)
  | closeFailed (run : Nat) (e : Error)
  | releaseFailedAfterStart (e : Error)
  | releaseFailedAfterMerge (e : Error)
  | mergingFiles (runs : Nat) (layout : Layout)
  | mergeStarted (runs scheduled : Nat)
  | termMerged (id : UInt32) (term : Term) (runs : List Nat) (documentFrequency : UInt32)
    (pointer : BitPosition)
  | progress (terms postings active : Nat)
  | mergeEndedEarly (active : Nat)
  | mergeFinished (terms postings : Nat)
  deriving DecidableEq, Repr

namespace Notice

/-- How much the notice matters. -/
def level : Notice → Level
  | termMerged .. => .trace
  | openingRun .. | runEmpty _ | runExhausted _ | mergeStarted .. | mergeFinished .. => .debug
  | mergingFiles .. | progress .. => .info
  | closeFailed .. | releaseFailedAfterStart _ | releaseFailedAfterMerge _ | mergeEndedEarly _ =>
    .warn

/-- Numbers in brackets, separated by commas. -/
def listText {α : Type} [ToString α] (numbers : List α) : String :=
  "[" ++ String.intercalate ", " (numbers.map toString) ++ "]"

/-- The text of the notice. -/
def text : Notice → String
  | openingRun run path => s!"opening run {run} from {path}"
  | runEmpty run => s!"run {run} is empty"
  | runExhausted run => s!"run {run} exhausted"
  | closeFailed run e => s!"failed to close cursor of run {run}: {e.message}"
  | releaseFailedAfterStart e =>
    s!"failed to release runs after initialization error: {e.message}"
  | releaseFailedAfterMerge e => s!"failed to release runs after merge error: {e.message}"
  | mergingFiles runs layout =>
    let blocks := if layout.blocks then " and blocks" else ""
    s!"merging {runs} runs with {layout.fieldCount} fields{blocks}"
  | mergeStarted runs scheduled => s!"merge started: {runs} runs, {scheduled} non-empty"
  | termMerged id term runs documentFrequency pointer =>
    let term := escapeBytes term
    let runs := listText runs
    s!"term {id} '{term}' from runs {runs}: df {documentFrequency} at {pointer}"
  | progress terms postings active =>
    s!"merged {terms} terms, {postings} postings, {active} runs active"
  | mergeEndedEarly active => s!"merge ended with {active} runs still open"
  | mergeFinished terms postings => s!"merge finished: {terms} terms, {postings} postings"

end Notice

end IndexMerge
