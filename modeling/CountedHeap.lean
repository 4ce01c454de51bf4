import CountedHeap.Command.Program
import CountedHeap.Directory
import CountedHeap.Heap.Override
import CountedHeap.Main
import CountedHeap.Session
import CountedHeap.Template.Bounded
import CountedHeap.Template.EndMarked
import CountedHeap.Template.Emit
import CountedHeap.Proofs.History
import CountedHeap.Proofs.Phase
import CountedHeap.Proofs.Change
import CountedHeap.Proofs.Operation
import CountedHeap.Proofs.Step
import CountedHeap.Proofs.Lifecycle
import CountedHeap.Proofs.Issue
import CountedHeap.Proofs.Utf8
import CountedHeap.Proofs.LineDecoding
import CountedHeap.Proofs.LineFrame
import CountedHeap.Proofs.Tenancy
import CountedHeap.Proofs.Tally
import CountedHeap.Proofs.Guarded
import CountedHeap.Proofs.SlotTable
import CountedHeap.Proofs.Failure
import CountedHeap.Proofs.Refusal
import CountedHeap.Proofs.Blur
import CountedHeap.Proofs.GrowthLaw
import CountedHeap.Proofs.Storage
import CountedHeap.Proofs.TextContent
import CountedHeap.Proofs.Reserve
import CountedHeap.Proofs.LineRoundTrip
import CountedHeap.Proofs.FirstLine
import CountedHeap.Proofs.Numeral
import CountedHeap.Proofs.Placeholder
import CountedHeap.Proofs.Release
import CountedHeap.Proofs.Subject
import CountedHeap.Proofs.Printing
import CountedHeap.Proofs.Delivery
import CountedHeap.Proofs.Isolation
import CountedHeap.Proofs.Commutation
import CountedHeap.Proofs.Economy
import CountedHeap.Proofs.Wording
import CountedHeap.Proofs.Logging
import CountedHeap.Proofs.Trail
import CountedHeap.Proofs.WriteLoop
import CountedHeap.Proofs.ExactFit
import CountedHeap.Proofs.Emission
import CountedHeap.Proofs.ReleaseLoop
import CountedHeap.Proofs.Pieces
import CountedHeap.Proofs.Rendering
import CountedHeap.Proofs.Doubling
import CountedHeap.Proofs.Frugality
import CountedHeap.Proofs.LiveLimit
import CountedHeap.Proofs.EndMarks
import CountedHeap.Proofs.Concatenation
import CountedHeap.Proofs.LineLoop
import CountedHeap.Proofs.Spelling
import CountedHeap.Proofs.Scanning
import CountedHeap.Proofs.Quoting
import CountedHeap.Proofs.Statements
import CountedHeap.Proofs.Entries
import CountedHeap.Proofs.DocumentLines
import CountedHeap.Proofs.Documents
