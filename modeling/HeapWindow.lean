import HeapWindow.Rounding
import HeapWindow.LittleEndian
import HeapWindow.Hex
import HeapWindow.Window
import HeapWindow.Fault
import HeapWindow.Journal
import HeapWindow.Action
import HeapWindow.Memory
import HeapWindow.Header
import HeapWindow.Walk
import HeapWindow.Spot
import HeapWindow.Allocator
import HeapWindow.Arena
import HeapWindow.FirstFit
import HeapWindow.Audit
import HeapWindow.Turns
import HeapWindow.Session
import HeapWindow.Extent
import HeapWindow.Chain
import HeapWindow.Pool
import HeapWindow.Replay
import HeapWindow.Tenancy
import HeapWindow.Run
import HeapWindow.Writes
import HeapWindow.Leasing
import HeapWindow.Sharing
import HeapWindow.Checked
import HeapWindow.Walker
import HeapWindow.Proofs.Frame
import HeapWindow.Proofs.Slots
import HeapWindow.Proofs.Spacing
import HeapWindow.Proofs.Segments
import HeapWindow.Proofs.Layout
import HeapWindow.Proofs.Allocation
import HeapWindow.Proofs.Release
import HeapWindow.Proofs.Auditing
import HeapWindow.Proofs.Refinement
import HeapWindow.Proofs.Ledger
import HeapWindow.Proofs.Following
import HeapWindow.Proofs.Mirroring
import HeapWindow.Proofs.Openings
import HeapWindow.Proofs.Partitions
import HeapWindow.Proofs.StaleReleases
import HeapWindow.Proofs.Payloads
import HeapWindow.Proofs.OrderlyChains
import HeapWindow.Proofs.Containment
import HeapWindow.Proofs.Blindness
import HeapWindow.Proofs.Rings
import HeapWindow.Proofs.DoubleReleases
import HeapWindow.Proofs.Cursors
import HeapWindow.Proofs.Faults
import HeapWindow.Proofs.Leases
import HeapWindow.Proofs.Shortages
import HeapWindow.Proofs.Accounting
import HeapWindow.Proofs.Acceptance
import HeapWindow.Proofs.Divisions
import HeapWindow.Proofs.Journals
import HeapWindow.Proofs.Interleavings
import HeapWindow.Proofs.Threads
import HeapWindow.Proofs.Thresholds
import HeapWindow.Proofs.Detection
import HeapWindow.Proofs.Returns
import HeapWindow.Proofs.ReleaseOrders
import HeapWindow.Proofs.Reversals
import HeapWindow.Proofs.Portions
import HeapWindow.Proofs.Clearings
import HeapWindow.Proofs.LastWriters
import HeapWindow.Proofs.Fields
import HeapWindow.Proofs.WholeWords
