import IndexMerge.Term
import IndexMerge.Text.Escape
import IndexMerge.Text.Utf8
import IndexMerge.Posting.Basic

/-!
# Errors

What can go wrong, by cause: a refused argument, an operation that comes too late, bytes that do
not follow a format, a broken invariant of a run or of a merge, a failing device, and any of these
while a run was being opened. `Error.message` is the only place where causes become text.
-/

namespace IndexMerge

/-- What a device reports when it cannot read or write. -/
inductive IoFault where
  | shortRead
  | noSuchFile
  | notADirectory
  | fileExists
  | isDirectory
  | nameTooLong
  | nulInPath
  | alreadySealed
  | invalidUtf8
  | deviceLost
  deriving DecidableEq, Repr, Inhabited

/-- The text of a device's report. -/
def IoFault.message : IoFault → String
  | shortRead => "failed to fill whole buffer"
  | noSuchFile => "No such file or directory (os error 2)"
  | notADirectory => "Not a directory (os error 20)"
  | fileExists => "File exists (os error 17)"
  | isDirectory => "Is a directory (os error 21)"
  | nameTooLong => "File name too long (os error 36)"
  | nulInPath => "file name contained an unexpected NUL byte"
  | alreadySealed => "entity not found"
  | invalidUtf8 => "stream did not contain valid UTF-8"
  | deviceLost => "device lost"

/-- An argument that is refused. -/
inductive BadArgument where
  | bitCount
  | zeroValue
  | startBit
  | startByte
  | zeroFrequency (doc : UInt32)
  | fieldFrequencies (doc : UInt32) (actual : Nat) (expected : UInt16)
  | blocksWithoutLayout (doc : UInt32)
  | unorderedBlocks (doc : UInt32)
  | runIndexTooLarge
  | tooManyTerms
  | noSuchRun (run count : Nat)
  | noRunFiles
  | termTooLong (length : Nat)
  | termOrder (term last : Term)
  | noPostings
  | documentOrder (term : Term)
  | statisticsFields (actual : Nat) (expected : UInt16)
  | unplacedTerm (term : Term)
  deriving DecidableEq, Repr

/-- The name of the argument that is refused. -/
def BadArgument.subject : BadArgument → String
  | bitCount => "count"
  | zeroValue => "value"
  | startBit | startByte => "start"
  | zeroFrequency _ | fieldFrequencies .. | blocksWithoutLayout _ | unorderedBlocks _ => "posting"
  | runIndexTooLarge | noSuchRun .. => "run_index"
  | tooManyTerms => "run"
  | noRunFiles => "runs"
  | termTooLong _ | termOrder .. => "term"
  | noPostings | documentOrder _ => "postings"
  | statisticsFields .. | unplacedTerm _ => "statistics"

/-- Why the argument is refused. -/
def BadArgument.reason : BadArgument → String
  | bitCount => "count <= 64"
  | zeroValue => "value >= 1"
  | startBit => "start.bit < 8"
  | startByte => "start.byte <= data.len() as u64"
  | zeroFrequency doc => s!"zero frequency for document {doc}"
  | fieldFrequencies doc actual expected =>
    s!"document {doc} has {actual} field frequencies, layout expects {expected}"
  | blocksWithoutLayout doc => s!"document {doc} has blocks in a block-less layout"
  | unorderedBlocks doc => s!"document {doc} has unordered blocks"
  | runIndexTooLarge => "exceeds u32"
  | tooManyTerms => "too many terms"
  | noSuchRun run count => s!"{run} out of {count} runs"
  | noRunFiles => "no run files given"
  | termTooLong length => s!"{length} bytes exceeds the {Term.maxLength} byte limit"
  | termOrder term last =>
    let term := Utf8.lossy term
    let last := Utf8.lossy last
    s!"'{term}' does not follow '{last}'"
  | noPostings => "a term needs at least one posting"
  | documentOrder term =>
    let term := Utf8.lossy term
    s!"document ids of '{term}' are not strictly increasing"
  | statisticsFields actual expected =>
    s!"{actual} field frequencies, lexicon has {expected} fields"
  | unplacedTerm term =>
    let term := escapeBytes term
    s!"'{term}' has no term id or pointer"

/-- An operation that its object does not allow any more. -/
inductive BadOperation where
  | writeSealedBits
  | advanceClosed
  | advancePastEnd (run : Nat)
  | writeClosedSink
  | writeClosedWriter
  | finishFinishedLexicon
  | writeFinishedLexicon
  | mergeAfterFailure
  deriving DecidableEq, Repr

/-- The operation that is refused. -/
def BadOperation.name : BadOperation → String
  | writeSealedBits => "write to sealed bit stream"
  | advanceClosed => "advance on a closed run cursor"
  | advancePastEnd run => s!"advance past the end of run {run}"
  | writeClosedSink => "write to a closed posting sink"
  | writeClosedWriter => "write to a closed posting writer"
  | finishFinishedLexicon => "finish on a finished lexicon writer"
  | writeFinishedLexicon => "write to a finished lexicon writer"
  | mergeAfterFailure => "merge_one on a failed merge"

/-- A number of a posting list that does not fit its place. -/
inductive PostingPart where
  | docId
  | frequency
  | fieldFrequency
  | block
  deriving DecidableEq, Repr

/-- How the place is called. -/
def PostingPart.name : PostingPart → String
  | docId => "document id"
  | frequency => "frequency"
  | fieldFrequency => "field frequency"
  | block => "block"

/-- Bytes or bits that do not follow their format. -/
inductive BadFormat where
  | endOfBits (byte : Nat)
  | longGamma (length : Nat)
  | runMagic
  | runVersion (version : UInt16)
  | lexiconMagic
  | lexiconVersion
  | flags
  | documentRange
  | zeroDocumentFrequency
  | pointerBit
  | truncatedPostings (term : Term)
  | termOrder (term last : Term)
  | postingsOverrun (run : UInt32)
  | layoutDiffers (path : String) (found expected : Layout)
  | overflow (part : PostingPart) (value : Nat)
  | missingTrailer
  | trailerCount (count entries : Nat)
  | unknownTag (tag : UInt8)
  deriving DecidableEq, Repr

/-- The element of the format that is at fault. -/
def BadFormat.element : BadFormat → String
  | endOfBits _ | longGamma _ => "bit stream"
  | runMagic | lexiconMagic => "magic"
  | runVersion _ => "run header"
  | lexiconVersion => "version"
  | flags => "flags"
  | documentRange => "header"
  | zeroDocumentFrequency => "document_frequency"
  | pointerBit => "bit_offset"
  | truncatedPostings _ | termOrder .. | postingsOverrun _ => "run"
  | layoutDiffers path _ _ => path
  | overflow .. => "posting list"
  | missingTrailer | trailerCount .. | unknownTag _ => "lexicon"

/-- A layout as messages show it. -/
def Layout.display (layout : Layout) : String :=
  s!"PostingLayout \x7b field_count: {layout.fieldCount}, blocks: {layout.blocks} \x7d"

/-- What is wrong with the element. -/
def BadFormat.reason : BadFormat → String
  | endOfBits byte => s!"unexpected end of data at byte {byte}"
  | longGamma length => s!"gamma code length {length} exceeds 64 bits"
  | runMagic => "magic == RUN_MAGIC"
  | runVersion version => s!"unsupported version {version}"
  | lexiconMagic => "magic == LEXICON_MAGIC"
  | lexiconVersion => "version == LEXICON_VERSION"
  | flags => "flags & !FLAG_BLOCKS == 0"
  | documentRange => "header.first_doc <= header.last_doc"
  | zeroDocumentFrequency => "document_frequency != 0"
  | pointerBit => "bit_offset < 8"
  | truncatedPostings term =>
    let term := escapeBytes term
    s!"truncated postings of term {term}"
  | termOrder term last =>
    let term := escapeBytes term
    let last := escapeBytes last
    s!"term {term} does not follow {last}"
  | postingsOverrun run => s!"postings overrun their recorded length in run {run}"
  | layoutDiffers _ found expected =>
    s!"layout {found.display} differs from {expected.display}"
  | overflow part value => s!"{part.name} {value} overflows"
  | missingTrailer => "missing trailer"
  | trailerCount count entries => s!"trailer counts {count} entries, read {entries}"
  | unknownTag tag =>
    let tag := hexLiteral tag.toNat
    s!"unknown entry tag {tag}"

/-- A broken rule of runs, of merging or of what is written. -/
inductive Violation where
  | fieldCounts (mine theirs : Nat)
  | documentFrequencyOverflow
  | writtenOrder (doc last : UInt32)
  | outsideRange (doc first last run : UInt32)
  | runOrder (doc last run : UInt32)
  | wrongRun (path : String) (found : UInt32) (expected : Nat)
  | overlap (run : Nat) (first : UInt32) (lastRun : Nat) (last : UInt32)
  | wrongCursor (found expected : Nat)
  | groupOrder (first second : Nat) (term : Term)
  | postingCount (term : Term) (count documentFrequency : Nat)
  | termIdsExhausted
  | mergeComplete
  | lexiconOrder (term last : Term)
  | termIdSequence (id : UInt32) (term : Term) (expected : Nat)
  deriving DecidableEq, Repr

/-- How the rule is broken. -/
def Violation.message : Violation → String
  | fieldCounts mine theirs => s!"cannot combine statistics with {mine} and {theirs} fields"
  | documentFrequencyOverflow => "document frequency overflow"
  | writtenOrder doc last => s!"document {doc} written after document {last}"
  | outsideRange doc first last run =>
    s!"document {doc} lies outside the range {first}..={last} of run {run}"
  | runOrder doc last run => s!"document {doc} follows document {last} in run {run}"
  | wrongRun path found expected => s!"{path} holds run {found}, expected run {expected}"
  | overlap run first lastRun last =>
    s!"run {run} starts at document {first} but run {lastRun} ends at {last}"
  | wrongCursor found expected =>
    s!"factory returned run {found} when asked for run {expected}"
  | groupOrder first second term =>
    let term := escapeBytes term
    s!"run {first} precedes run {second} in the group of '{term}'"
  | postingCount term count documentFrequency =>
    let term := escapeBytes term
    s!"'{term}' has {count} postings but document frequency {documentFrequency}"
  | termIdsExhausted => "term id space exhausted"
  | mergeComplete => "merge_one called after the merge completed"
  | lexiconOrder term last =>
    let term := escapeBytes term
    let last := escapeBytes last
    s!"lexicon term '{term}' does not follow '{last}'"
  | termIdSequence id term expected =>
    let term := escapeBytes term
    s!"term id {id} of '{term}' breaks the sequence at {expected}"

/-- A failure with its cause. -/
inductive Error where
  | argument (cause : BadArgument)
  | operation (cause : BadOperation)
  | format (cause : BadFormat)
  | violation (cause : Violation)
  | initialization (run : Nat) (cause : Error)
  | io (context : String) (fault : IoFault)
  deriving DecidableEq, Repr

namespace Error

/-- The text of an error. -/
def message : Error → String
  | argument cause => s!"invalid argument {cause.subject}: {cause.reason}"
  | operation cause => s!"invalid operation {cause.name}"
  | format cause => s!"invalid storage format for '{cause.element}': {cause.reason}"
  | violation cause => s!"invariant violation: {cause.message}"
  | initialization run cause => s!"failed to initialize run {run}: {cause.message}"
  | io context fault => s!"IO error for '{context}': {fault.message}"

/-- The texts of an error and of the errors below it, outermost first. -/
def chain : Error → List String
  | initialization run cause => (initialization run cause).message :: cause.chain
  | io context fault => [(io context fault).message, fault.message]
  | e => [e.message]

/-- Names the source of a device's failure where none was named yet. -/
def within (source : String) : Error → Error
  | io context fault => if context = "" then io source fault else io context fault
  | e => e

end Error

end IndexMerge
