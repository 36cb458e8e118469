import AbcMalloc.Foundation.Links
import AbcMalloc.Foundation.Run
import AbcMalloc.Foundation.Tiling
import AbcMalloc.Memory
import AbcMalloc.Book
import AbcMalloc.Ledger
import AbcMalloc.LedgerRuns
import AbcMalloc.Tlsf.Model
import AbcMalloc.Tlsf.Classes
import AbcMalloc.Tlsf.Lists
import AbcMalloc.Tlsf.Physical
import AbcMalloc.Tlsf.Operations
import AbcMalloc.Tlsf.Release
import AbcMalloc.Tlsf.Rings
import AbcMalloc.Tlsf.Steps
import AbcMalloc.Tlsf.Runs
import AbcMalloc.Tlsf.Refinement
import AbcMalloc.Tlsf.DoubleFree
import AbcMalloc.Foundation.Buddies
import AbcMalloc.Buddy.Model
import AbcMalloc.Buddy.Blocks
import AbcMalloc.Foundation.Bits
import AbcMalloc.Buddy.Lists
import AbcMalloc.Buddy.Splitting
import AbcMalloc.Buddy.Operations
import AbcMalloc.Buddy.Runs
import AbcMalloc.Buddy.Refinement
import AbcMalloc.BookRuns
import AbcMalloc.Contents
import AbcMalloc.Buddy.Contents
import AbcMalloc.Tlsf.Contents
import AbcMalloc.Va.Model
import AbcMalloc.Va.Refusal
import AbcMalloc.Foundation.Intervals
import AbcMalloc.Va.Threads
import AbcMalloc.Owner.Oor
import AbcMalloc.Owner.Claim
import AbcMalloc.Remote.Model
import AbcMalloc.Remote.Ring
import AbcMalloc.Remote.Delivery
import AbcMalloc.Remote.Runs
import AbcMalloc.Remote.Wraparound
import AbcMalloc.Owner.Table
import AbcMalloc.Foundation.Search
import AbcMalloc.Arena.Tier
import AbcMalloc.Arena.Model
import AbcMalloc.Arena.Sheets
import AbcMalloc.Arena.Index
import AbcMalloc.Arena.Requests
import AbcMalloc.Arena.Frees
import AbcMalloc.Arena.Lists
import AbcMalloc.Arena.Invariant
import AbcMalloc.Arena.Steps
import AbcMalloc.Arena.Operations
import AbcMalloc.Arena.World
import AbcMalloc.Arena.Clients
import AbcMalloc.Arena.Overlap
import AbcMalloc.Arena.Homes
import AbcMalloc.Arena.Reach
import AbcMalloc.Arena.Frozen
import AbcMalloc.Arena.Repeats
import AbcMalloc.Tlsf.Headers
import AbcMalloc.Arena.Entries
import AbcMalloc.Arena.Persistent
import AbcMalloc.Arena.Presence
import AbcMalloc.Arena.Routes
import AbcMalloc.Tlsf.Reuse
import AbcMalloc.Buddy.Reuse
import AbcMalloc.Temporal
import AbcMalloc.Foundation.Dyadic
import AbcMalloc.Buddy.Complete
import AbcMalloc.Buddy.Recovery
import AbcMalloc.Tlsf.Fit
import AbcMalloc.Tlsf.Recovery
import AbcMalloc.External.Refinement
import AbcMalloc.Arena.Layout
import AbcMalloc.Owner.Sheets
import AbcMalloc.External.Marks
import AbcMalloc.Doctor.Counters
import AbcMalloc.Arena.Conservation
import AbcMalloc.Arena.AlignedRuns
import AbcMalloc.Arena.Contents
import AbcMalloc.Arena.Readers
import AbcMalloc.Arena.Predictor
import AbcMalloc.Arena.Growth
import AbcMalloc.Arena.IndexRuns
import AbcMalloc.Arena.Sweep
import AbcMalloc.Arena.Backing
import AbcMalloc.Arena.Holdings
import AbcMalloc.Arena.Linking
import AbcMalloc.Arena.Expansion
import AbcMalloc.Arena.Rollback
import AbcMalloc.Arena.TierRuns
import AbcMalloc.Arena.ExpansionRuns
import AbcMalloc.Buddy.Pool
import AbcMalloc.Buddy.Tags
import AbcMalloc.Buddy.Rejects
import AbcMalloc.Buddy.Checked
import AbcMalloc.Buddy.Forged
import AbcMalloc.Foundation.Bytes
import AbcMalloc.Tlsf.Overflow
import AbcMalloc.Tlsf.Walk
import AbcMalloc.Tlsf.Repair
import AbcMalloc.Threads.Runs
