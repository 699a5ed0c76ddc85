import XClone.Library.Program
import XClone.Library.Observation
import XClone.Library.Memory
import XClone.Library.Interleaving
import XClone.Library.Footprint
import XClone.Library.Archive
import XClone.Library.Bytes
import XClone.Library.BlockCipher
import XClone.Library.CInt
import XClone.Library.Calendar
import XClone.Library.Digits
import XClone.Library.Ring
import XClone.Kernel.Paths
import XClone.Kernel.FileSystem
import XClone.Kernel.Calls
import XClone.Kernel.FileOps
import XClone.Kernel.Events
import XClone.Sync.Unlink
import XClone.Sync.Encryption
import XClone.Sync.Slots
import XClone.Sync.Counters
import XClone.Sync.Compression
import XClone.Sync.EncComp
import XClone.Sync.Contracts
import XClone.Sync.Bounds
import XClone.Sync.Resources
import XClone.Sync.Completion
import XClone.Sync.Decoder
import XClone.Sync.RoundTrip
import XClone.Sync.CompressionLog
import XClone.Sync.Operations
import XClone.Sync.Originals
import XClone.Sync.ShortReads
import XClone.Sync.Termination
import XClone.Sync.Names
import XClone.Proc.Limits
import XClone.Proc.Key
import XClone.User.Options
import XClone.Sync.Syscall
import XClone.Sync.Footprints
import XClone.Sync.Moves
import XClone.Sync.Leftovers
import XClone.Sync.Trashbin
import XClone.Sync.KeyOwnership
import XClone.Async.Queue
import XClone.Async.System
import XClone.Async.Delivery
import XClone.Async.Discipline
import XClone.Async.Consumer
import XClone.Async.Unload
