import Pmemcpy.Lib.Run
import Pmemcpy.Lib.Bytes
import Pmemcpy.Lib.Packing
import Pmemcpy.Lib.Unpacking
import Pmemcpy.Errors
import Pmemcpy.Hashtable.UniqueKeys
import Pmemcpy.Serialize.Message
import Pmemcpy.Serialize.PackedRoom
import Pmemcpy.Hashtable.Crash
import Pmemcpy.Hashtable.CrashHistory
import Pmemcpy.Lib.Persistence
import Pmemcpy.Hashtable.Durability
import Pmemcpy.Hashtable.LifeCycle
import Pmemcpy.Hashtable.Clients
import Pmemcpy.Hashtable.Interference
import Pmemcpy.Hashtable.SharedClients
import Pmemcpy.Lib.FileSystem
import Pmemcpy.Files.Storages
import Pmemcpy.Files.LastWrite
import Pmemcpy.Memcpy.Pmem
import Pmemcpy.Memcpy.FailedStore
import Pmemcpy.Memcpy.ModesAgree
import Pmemcpy.Hashtable.Layout
import Pmemcpy.Hashtable.Outcome
import Pmemcpy.Hashtable.ExactLookup
import Pmemcpy.Files.Reads
import Pmemcpy.Memcpy.Dimensions
import Pmemcpy.Lib.Probe
import Pmemcpy.Serialize.Reader
import Pmemcpy.Serialize.RoundTrip
import Pmemcpy.Serialize.Bounds
import Pmemcpy.Serialize.OtherBytes
import Pmemcpy.Serialize.StoredBytes
import Pmemcpy.Serialize.PackedReader
import Pmemcpy.Memcpy.ArrayLoads
import Pmemcpy.Memcpy.TypedValues
import Pmemcpy.Lib.Interleaving
import Pmemcpy.Lib.Progress
import Pmemcpy.Files.Programs
import Pmemcpy.Files.Syncing
import Pmemcpy.Lib.Atomicity
import Pmemcpy.Files.AtomicCopies
import Pmemcpy.Memcpy.SeparateClients
import Pmemcpy.Memcpy.PowerFailure
import Pmemcpy.Memcpy.Interchangeable
import Pmemcpy.Memcpy.SharedIds
import Pmemcpy.Memcpy.ParallelIo
import Pmemcpy.Lib.Hyperslab
import Pmemcpy.Memcpy.Blocks
import Pmemcpy.Files.Descriptors
import Pmemcpy.Lib.Template
import Pmemcpy.Formatter
import Pmemcpy.Lib.Resources
