import MarkSweep.Event.Log
import MarkSweep.Header.History
import MarkSweep.Heap.History
import MarkSweep.Heap.Ledger
import MarkSweep.Heap.Listing
import MarkSweep.Heap.Reachability
import MarkSweep.Heap.Resource
import MarkSweep.Heap.Walk
import MarkSweep.Heap.WellFormed
import MarkSweep.Machine.History
import MarkSweep.Machine.Ledger
import MarkSweep.Machine.Program
import MarkSweep.Machine.Release
import MarkSweep.Proofs.Config.Loading
import MarkSweep.Proofs.Decimal.Rounding
import MarkSweep.Proofs.Header.Fields
import MarkSweep.Proofs.Heap.Accounting
import MarkSweep.Proofs.Heap.Aliasing
import MarkSweep.Proofs.Heap.Arena
import MarkSweep.Proofs.Heap.Atomicity
import MarkSweep.Proofs.Heap.Coloring
import MarkSweep.Proofs.Heap.Conservation
import MarkSweep.Proofs.Heap.Effects
import MarkSweep.Proofs.Heap.Emptying
import MarkSweep.Proofs.Heap.Erasure
import MarkSweep.Proofs.Heap.Exactness
import MarkSweep.Proofs.Heap.Finalization
import MarkSweep.Proofs.Heap.Headers
import MarkSweep.Proofs.Heap.Interruption
import MarkSweep.Proofs.Heap.LeftoverColors
import MarkSweep.Proofs.Heap.Limit
import MarkSweep.Proofs.Heap.Links
import MarkSweep.Proofs.Heap.Listing
import MarkSweep.Proofs.Heap.Mutation
import MarkSweep.Proofs.Heap.Occupation
import MarkSweep.Proofs.Heap.Overwriting
import MarkSweep.Proofs.Heap.Renaming
import MarkSweep.Proofs.Heap.Representation
import MarkSweep.Proofs.Heap.Resting
import MarkSweep.Proofs.Heap.Saturation
import MarkSweep.Proofs.Heap.Selection
import MarkSweep.Proofs.Heap.Sweeping
import MarkSweep.Proofs.Heap.Thresholds
import MarkSweep.Proofs.Heap.Totals
import MarkSweep.Proofs.Heap.Traffic
import MarkSweep.Proofs.Heap.Tricolor
import MarkSweep.Proofs.Heap.Tuning
import MarkSweep.Proofs.Machine.Accounting
import MarkSweep.Proofs.Machine.Amortization
import MarkSweep.Proofs.Machine.Exhaustion
import MarkSweep.Proofs.Machine.Finalization
import MarkSweep.Proofs.Machine.Limit
import MarkSweep.Proofs.Machine.Soundness
import MarkSweep.Proofs.Machine.Teardown
import MarkSweep.Proofs.Machine.Transparency
import MarkSweep.Proofs.Stack.Growth
import MarkSweep.Proofs.Stack.Push
import MarkSweep.Proofs.Stack.Storage
