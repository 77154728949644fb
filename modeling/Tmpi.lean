import Tmpi.Lib.Network
import Tmpi.Lib.Binomial
import Tmpi.Lib.Spanning
import Tmpi.Lib.Buffer
import Tmpi.Lib.Matching
import Tmpi.Lib.Chain
import Tmpi.Lib.Path
import Tmpi.Lib.Ring
import Tmpi.Lib.Wakeup
import Tmpi.Lib.Backlink
import Tmpi.Lib.Locking
import Tmpi.Lib.Stripping
import Tmpi.Intra.Handle
import Tmpi.Intra.State
import Tmpi.Intra.Requests
import Tmpi.Intra.Handlers
import Tmpi.Intra.Places
import Tmpi.Intra.Sides
import Tmpi.Intra.Posts
import Tmpi.Intra.Moves
import Tmpi.Intra.Calls
import Tmpi.Intra.Matches
import Tmpi.Intra.Handshake
import Tmpi.Intra.Runs
import Tmpi.Intra.Updates
import Tmpi.Intra.Evolution
import Tmpi.Intra.Order
import Tmpi.Intra.Delivery
import Tmpi.Intra.Ownership
import Tmpi.Intra.Effects
import Tmpi.Intra.Completion
import Tmpi.Intra.Locks
import Tmpi.Intra.LockBalance
import Tmpi.Intra.Sends
import Tmpi.Intra.Frees
import Tmpi.Intra.Restart
import Tmpi.Netd.Hcube
import Tmpi.Netd.Op
import Tmpi.Netd.Tree
import Tmpi.Netd.Collective
import Tmpi.Netd.Agreement
import Tmpi.Netd.Reduce
import Tmpi.Netd.Fifo
import Tmpi.Netd.StackAllocator
import Tmpi.Netq.Tables
import Tmpi.Netq.Startup
import Tmpi.Netq.GroupFile
import Tmpi.Netq.GroupFormat
import Tmpi.Netq.GroupIds
import Tmpi.Netq.CommandLine
import Tmpi.Coll.Objects
import Tmpi.Coll.Cells
import Tmpi.Coll.Queues
import Tmpi.Coll.Invariant
import Tmpi.Coll.Progress
import Tmpi.Coll.Barrier
import Tmpi.Coll.FreeList
import Tmpi.Coll.Recycling
import Tmpi.Coll.Bcast
import Tmpi.Coll.Reduce
import Tmpi.Coll.Allreduce
import Tmpi.Coll.Alternation
import Tmpi.Mpi.Types
import Tmpi.Mpi.Single
import Tmpi.Mpi.LocalReduce
import Tmpi.Mpi.Reduce
import Tmpi.Mpi.Frame
import Tmpi.Mpi.Stages
import Tmpi.Mpi.Barrier
import Tmpi.Mpitrans.SymbolTable
import Tmpi.Mpitrans.Strings
import Tmpi.Mpitrans.NameBuffer
import Tmpi.Mpitrans.Accumulation
import Tmpi.Mpitrans.Buckets
import Tmpi.Mpitrans.Scopes
import Tmpi.Mpitrans.Declarations
import Tmpi.Mpitrans.Scoping
import Tmpi.Coll.Stepwise
import Tmpi.Coll.Release
import Tmpi.Coll.Regions
import Tmpi.Lib.Ranking
import Tmpi.Mpi.Group
import Tmpi.Mpi.GroupSets
import Tmpi.Mpi.GroupCompare
import Tmpi.Mpi.GroupRange
import Tmpi.Mpi.GroupTables
import Tmpi.Mpi.GroupClosure
import Tmpi.Intra.Arrays
import Tmpi.Mpi.Lengths
import Tmpi.Intra.Buffered
import Tmpi.Lib.Tiling
import Tmpi.Lib.Circular
import Tmpi.Utils.Mbuffer
import Tmpi.Utils.Arenas
import Tmpi.Utils.Tqueue
import Tmpi.Utils.Fifo
import Tmpi.Mpi.Entries
import Tmpi.Mpi.Starts
import Tmpi.Mpi.Reporting
import Tmpi.Mpi.Refused
import Tmpi.Utils.Carving
import Tmpi.Utils.Reset
import Tmpi.Lib.Transfer
import Tmpi.Netd.Links
import Tmpi.Netd.Sock
import Tmpi.Netd.Framing
import Tmpi.Netd.RoundTrip
import Tmpi.Lib.Sockets
import Tmpi.Netd.Bootstrap
import Tmpi.Netd.Wiring
import Tmpi.Netd.Wired
import Tmpi.Netd.Callers
import Tmpi.Netd.Mesh
import Tmpi.Netd.Rendezvous
import Tmpi.Netd.Countdown
import Tmpi.Netd.Wires
import Tmpi.Mpi.Serial
import Tmpi.Intra.Progress
