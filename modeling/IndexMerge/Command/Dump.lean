import IndexMerge.Command.Outcome
import IndexMerge.InvertedFile.Reader
import IndexMerge.Lexicon.Reader

/-!
# The dump command

Lists the entries of a lexicon, a line for each, and behind them the posting lists to which they
point when an inverted file is given. Nothing is printed unless all entries can be read.
-/

namespace IndexMerge.Command

/-- Which lexicon is listed. -/
structure DumpRequest where
  lexicon : String
  inverted : Option String
  deriving Repr

/-- An entry without its postings. -/
def entryLine (e : LexiconEntry) : String :=
  let s := e.statistics
  let term := escapeBytes e.term
  let fields :=
    if s.fieldFrequencies.isEmpty then "" else "\tfields=" ++ Notice.listText s.fieldFrequencies
  let pointer := match s.pointer with
    | some p => "\t@" ++ p.display
    | none => ""
  s!"{s.termId.getD 0}\t{term}\tdf={s.documentFrequency}\tfreq={s.frequency}{fields}{pointer}"

/-- A posting with its blocks. -/
def postingText (p : Posting) : String :=
  let blocks := if p.blocks.isEmpty then "" else Notice.listText p.blocks
  s!"{p.docId}:{p.frequency}{blocks}"

/-- Postings behind their entry. -/
def postingsText (ps : List Posting) : String :=
  "\t" ++ String.intercalate " " (ps.map postingText)

/-- The line of an entry, with the postings that an inverted file has for it. -/
def dumpLine (layout : Layout) (inverted : Option (Array UInt8)) (e : LexiconEntry) :
    Except Failure String :=
  match inverted with
  | none => .ok (entryLine e)
  | some data =>
    let s := e.statistics
    match readPostings data (s.pointer.getD ⟨0, 0⟩) s.documentFrequency.toNat layout with
    | .ok ps => .ok (entryLine e ++ postingsText ps)
    | .error cause => .error (.ofError s!"Failed to decode postings of '{e.text}'" cause)

/-- The lines of a lexicon. -/
def dumpLines (r : DumpRequest) (store : FileStore) : Except Failure (List String) := do
  requireFile store r.lexicon
  let opening := s!"Failed to open lexicon {r.lexicon}"
  let source ← (store.openSource r.lexicon).mapError
    fun fault => .ofError opening (.io r.lexicon fault)
  let reader ← (LexiconReader.start source).mapError (.ofError opening)
  let inverted ← r.inverted.mapM fun path =>
    (store.readFile path).mapError (.ofFault s!"Failed to read {path}")
  reader.items.mapM fun
    | .ok e => dumpLine reader.layout inverted e
    | .error cause => .error (.ofError "Corrupt lexicon entry" cause)

/-- Lists a lexicon. -/
def dump (r : DumpRequest) (store : FileStore) : Outcome :=
  match dumpLines r store with
  | .ok lines => .printed lines store
  | .error f => .failed f store

end IndexMerge.Command
