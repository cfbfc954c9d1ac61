import IndexMerge.Attempt
import IndexMerge.Bits.Code
import IndexMerge.Bits.Position
import IndexMerge.Bits.Reader
import IndexMerge.Bits.Writer
import IndexMerge.Bytes.Buffer
import IndexMerge.Bytes.Progress
import IndexMerge.Bytes.Recorder
import IndexMerge.Bytes.Sink
import IndexMerge.Bytes.Source
import IndexMerge.Bytes.Word
import IndexMerge.Command.Arguments
import IndexMerge.Command.Dump
import IndexMerge.Command.Inspect
import IndexMerge.Command.Merge
import IndexMerge.Command.Outcome
import IndexMerge.Error
import IndexMerge.FileStore
import IndexMerge.InvertedFile.Code
import IndexMerge.InvertedFile.InMemory
import IndexMerge.InvertedFile.Reader
import IndexMerge.InvertedFile.Sink
import IndexMerge.InvertedFile.Writer
import IndexMerge.Json.Reader
import IndexMerge.Json.Record
import IndexMerge.Json.Token
import IndexMerge.Json.Value
import IndexMerge.Lexicon.Entry
import IndexMerge.Lexicon.Reader
import IndexMerge.Lexicon.Record
import IndexMerge.Lexicon.Writer
import IndexMerge.Main
import IndexMerge.Merge.Basic
import IndexMerge.Merge.Heap
import IndexMerge.Merge.Journal
import IndexMerge.Merge.Ledger
import IndexMerge.Merge.Lease
import IndexMerge.Merge.Loop
import IndexMerge.Merge.Options
import IndexMerge.Merge.Schedule
import IndexMerge.Notice
import IndexMerge.Path
import IndexMerge.Posting.Basic
import IndexMerge.Posting.Counted
import IndexMerge.Posting.Layout
import IndexMerge.Posting.Sequence
import IndexMerge.Posting.Source
import IndexMerge.Posting.Text
import IndexMerge.Proofs.Bits.Code
import IndexMerge.Proofs.Bits.Exact
import IndexMerge.Proofs.Bits.Progress
import IndexMerge.Proofs.Bits.Readback
import IndexMerge.Proofs.Bits.Reader
import IndexMerge.Proofs.Bits.Stream
import IndexMerge.Proofs.Bits.Writer
import IndexMerge.Proofs.Bytes.Delivery
import IndexMerge.Proofs.Bytes.Exact
import IndexMerge.Proofs.Bytes.Reads
import IndexMerge.Proofs.Command.Listing
import IndexMerge.Proofs.Exact
import IndexMerge.Proofs.FileStore
import IndexMerge.Proofs.Heap.Map
import IndexMerge.Proofs.Heap.Order
import IndexMerge.Proofs.InvertedFile.Alike
import IndexMerge.Proofs.InvertedFile.Canonical
import IndexMerge.Proofs.InvertedFile.Closing
import IndexMerge.Proofs.InvertedFile.Code
import IndexMerge.Proofs.InvertedFile.Drain
import IndexMerge.Proofs.InvertedFile.Guarded
import IndexMerge.Proofs.InvertedFile.Iteration
import IndexMerge.Proofs.InvertedFile.Readback
import IndexMerge.Proofs.InvertedFile.Retention
import IndexMerge.Proofs.InvertedFile.Tiling
import IndexMerge.Proofs.InvertedFile.View
import IndexMerge.Proofs.InvertedFile.Watched
import IndexMerge.Proofs.InvertedFile.Writer
import IndexMerge.Proofs.Lexicon.Accepted
import IndexMerge.Proofs.Lexicon.Cut
import IndexMerge.Proofs.Lexicon.Failing
import IndexMerge.Proofs.Lexicon.Grammar
import IndexMerge.Proofs.Lexicon.Read
import IndexMerge.Proofs.Lexicon.Unfinished
import IndexMerge.Proofs.Lexicon.Union
import IndexMerge.Proofs.Lexicon.Written
import IndexMerge.Proofs.Merge.Balance
import IndexMerge.Proofs.Merge.Calls
import IndexMerge.Proofs.Merge.Custody
import IndexMerge.Proofs.Merge.Cut
import IndexMerge.Proofs.Merge.Each
import IndexMerge.Proofs.Merge.Ending
import IndexMerge.Proofs.Merge.Endless
import IndexMerge.Proofs.Merge.Files
import IndexMerge.Proofs.Merge.Indexed
import IndexMerge.Proofs.Merge.Interchange
import IndexMerge.Proofs.Merge.Lockstep
import IndexMerge.Proofs.Merge.Memory
import IndexMerge.Proofs.Merge.Orderly
import IndexMerge.Proofs.Merge.Refusal
import IndexMerge.Proofs.Merge.Retained
import IndexMerge.Proofs.Merge.Step
import IndexMerge.Proofs.Merge.Tally
import IndexMerge.Proofs.Merge.Termination
import IndexMerge.Proofs.Merge.Tiling
import IndexMerge.Proofs.Merge.Truncated
import IndexMerge.Proofs.Merge.Tuning
import IndexMerge.Proofs.Merge.Unchecked
import IndexMerge.Proofs.Merge.Unfinished
import IndexMerge.Proofs.Merge.Union
import IndexMerge.Proofs.Merge.Untrusted
import IndexMerge.Proofs.Posting.Ascending
import IndexMerge.Proofs.Posting.Given
import IndexMerge.Proofs.Posting.Layout
import IndexMerge.Proofs.Posting.Sequence
import IndexMerge.Proofs.Posting.Yield
import IndexMerge.Proofs.Quiet
import IndexMerge.Proofs.Reads
import IndexMerge.Proofs.Run.Built
import IndexMerge.Proofs.Run.Closings
import IndexMerge.Proofs.Run.Codec
import IndexMerge.Proofs.Run.Contract
import IndexMerge.Proofs.Run.Cut
import IndexMerge.Proofs.Run.Exact
import IndexMerge.Proofs.Run.Mergeable
import IndexMerge.Proofs.Run.Offered
import IndexMerge.Proofs.Run.Opener
import IndexMerge.Proofs.Run.Range
import IndexMerge.Proofs.Run.Record
import IndexMerge.Proofs.Run.Refinement
import IndexMerge.Proofs.Run.Skipped
import IndexMerge.Proofs.Run.Spill
import IndexMerge.Proofs.Run.Statistics
import IndexMerge.Proofs.Run.Stored
import IndexMerge.Proofs.Run.Through
import IndexMerge.Proofs.Run.Totals
import IndexMerge.Proofs.Run.Truncated
import IndexMerge.Proofs.Run.Unchecked
import IndexMerge.Proofs.Run.Union
import IndexMerge.Proofs.Run.Untrusted
import IndexMerge.Proofs.Run.Walk
import IndexMerge.Proofs.Schedule.Acceptance
import IndexMerge.Proofs.Schedule.Apart
import IndexMerge.Proofs.Schedule.Coverage
import IndexMerge.Proofs.Schedule.Custody
import IndexMerge.Proofs.Schedule.Each
import IndexMerge.Proofs.Schedule.Endless
import IndexMerge.Proofs.Schedule.Group
import IndexMerge.Proofs.Schedule.Ledger
import IndexMerge.Proofs.Schedule.Lending
import IndexMerge.Proofs.Schedule.Merged
import IndexMerge.Proofs.Schedule.Opening
import IndexMerge.Proofs.Schedule.Steady
import IndexMerge.Proofs.Schedule.Unchecked
import IndexMerge.Proofs.Schedule.Untrusted
import IndexMerge.Proofs.Statistics
import IndexMerge.Proofs.Term.Order
import IndexMerge.Run.Basic
import IndexMerge.Run.Cursor
import IndexMerge.Run.Faulty
import IndexMerge.Run.Header
import IndexMerge.Run.InMemory
import IndexMerge.Run.Opener
import IndexMerge.Run.Record
import IndexMerge.Run.Save
import IndexMerge.Run.Stored
import IndexMerge.Statistics
import IndexMerge.Term
import IndexMerge.Text.Escape
import IndexMerge.Text.Size
import IndexMerge.Text.Utf8
import IndexMerge.Total
