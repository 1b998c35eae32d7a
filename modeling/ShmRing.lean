import ShmRing.Lib.Transition
import ShmRing.Lib.Channel
import ShmRing.Fifo
import ShmRing.Lib.Bytes
import ShmRing.Lib.Circular
import ShmRing.Memory
import ShmRing.Frame
import ShmRing.Server
import ShmRing.Placement
import ShmRing.Extent
import ShmRing.Arithmetic
import ShmRing.Client
import ShmRing.Validation
import ShmRing.Agreement
import ShmRing.Session
import ShmRing.Isolation
import ShmRing.Delivery
import ShmRing.Wrap
import ShmRing.Wired
import ShmRing.Handles
import ShmRing.Lib.Futex
import ShmRing.Lib.Semaphore
import ShmRing.Wake
import ShmRing.Handshake
import ShmRing.Completion
import ShmRing.Encoding
import ShmRing.Fill
import ShmRing.Lib.Wrapping
import ShmRing.Queues
import ShmRing.Uring
import ShmRing.Authority
import ShmRing.Steps
import ShmRing.Ownership
import ShmRing.Sessions
import ShmRing.Slots
import ShmRing.Reaping
import ShmRing.Eviction
import ShmRing.BringUp
import ShmRing.Start
import ShmRing.Coverage
import ShmRing.Recovery
import ShmRing.Exchange
import ShmRing.Tracking
import ShmRing.Holders
import ShmRing.Deadline
import ShmRing.Lock
import ShmRing.Stream
import ShmRing.Lib.Pipe
import ShmRing.Tasks
import ShmRing.Announce
import ShmRing.Transfer
import ShmRing.Piped
import ShmRing.Whole
import ShmRing.Asserts
import ShmRing.Marker
import ShmRing.Closing
import ShmRing.Backlog
import ShmRing.Flush
