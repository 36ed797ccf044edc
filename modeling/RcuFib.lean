import RcuFib.Address
import RcuFib.Prefix
import RcuFib.Library.SearchGraph
import RcuFib.Library.Routine
import RcuFib.Library.Trace
import RcuFib.Library.Tally
import RcuFib.Trie.Heap
import RcuFib.Trie.Invariant
import RcuFib.Trie.Publish
import RcuFib.Trie.Insert
import RcuFib.Trie.Descent
import RcuFib.Trie.InsertSteps
import RcuFib.Trie.Erase
import RcuFib.Trie.Clear
import RcuFib.Trie.Lookup
import RcuFib.Trie.Alone
import RcuFib.Trie.History
import RcuFib.Trie.Writer
import RcuFib.Trie.Concurrent
import RcuFib.Trie.Blackout
import RcuFib.Library.SearchTree
import RcuFib.Trie.Compression
import RcuFib.Trie.Shape
import RcuFib.PrefixOrder
import RcuFib.PrefixRange
import RcuFib.Trie.ForEach
import RcuFib.Trie.Publication
import RcuFib.Library.Custody
import RcuFib.Trie.Ownership
import RcuFib.Epoch.Domain
import RcuFib.Epoch.Invariant
import RcuFib.Epoch.Moves
import RcuFib.Epoch.Steps
import RcuFib.Epoch.System
import RcuFib.Epoch.Log
import RcuFib.Epoch.Ledger
import RcuFib.Epoch.Grace
import RcuFib.Epoch.Residents
import RcuFib.Trie.Standing
import RcuFib.Fib.Rcu
import RcuFib.Fib.Reclamation
import RcuFib.Epoch.Synchronize
import RcuFib.Epoch.Reclaim
import RcuFib.Epoch.Backlog
import RcuFib.Library.LinkedList
import RcuFib.Epoch.Registration
import RcuFib.Epoch.Slots
import RcuFib.Library.Numeral
import RcuFib.Text.Ipv4
import RcuFib.Text.Groups
import RcuFib.Text.Ipv6
import RcuFib.Text.Grammar
import RcuFib.Library.Runs
import RcuFib.Text.Format
import RcuFib.Text.RoundTrip
import RcuFib.Mrt.Record
import RcuFib.Mrt.Load
import RcuFib.Fib.Route
import RcuFib.Fib.Seqlock
import RcuFib.Fib.Variants
import RcuFib.Rib.Rib
import RcuFib.Rib.Offers
import RcuFib.Rib.Synchroniser
import RcuFib.Rib.Convergence
import RcuFib.Rib.Accounting
import RcuFib.AddressBits
import RcuFib.Mrt.Truncation
import RcuFib.Library.Words
import RcuFib.Library.Ranks
import RcuFib.Bench.Latency
import RcuFib.Library.Histogram
import RcuFib.Trie.Depth
import RcuFib.Text.Bounds
import RcuFib.Fib.Failure
import RcuFib.Rib.Failure
import RcuFib.Library.Monitor
import RcuFib.Library.Sections
import RcuFib.Fib.Locked
import RcuFib.Fib.Immediate
import RcuFib.Fib.Progress
import RcuFib.Library.Simulation
import RcuFib.Fib.Serial
import RcuFib.Fib.Lookups
import RcuFib.Bench.Workload
import RcuFib.Bench.Readers
import RcuFib.Synthetic
import RcuFib.Bench.Dataset
import RcuFib.Trie.Destroy
import RcuFib.Fib.Teardown
import RcuFib.Fib.Visits
import RcuFib.Rib.Forwarding
