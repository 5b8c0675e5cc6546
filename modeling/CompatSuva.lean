import CompatSuva.Common.LittleEndian
import CompatSuva.Common.Memory
import CompatSuva.Common.Arrivals
import CompatSuva.Common.Chain
import CompatSuva.Common.HashTable
import CompatSuva.Common.Outcome
import CompatSuva.Common.Lines
import CompatSuva.Common.Tokens
import CompatSuva.Common.Reaches
import CompatSuva.Common.Walk
import CompatSuva.Common.XorLinear
import CompatSuva.Common.Triple
import CompatSuva.Common.Scanf
import CompatSuva.Common.Block
import CompatSuva.Common.Simulation
import CompatSuva.Common.RecordLock
import CompatSuva.Common.Inodes
import CompatSuva.Common.SharedStreams
import CompatSuva.Common.Descriptors
import CompatSuva.Common.Ownership
import CompatSuva.Common.Alike
import CompatSuva.Mem.Table
import CompatSuva.Mem.Invariant
import CompatSuva.Mem.Refinement
import CompatSuva.Mem.Sizes
import CompatSuva.Mem.Malloc
import CompatSuva.Mem.Realloc
import CompatSuva.Mem.FreeAll
import CompatSuva.Mem.Reentrant
import CompatSuva.Mem.ReentrantWalk
import CompatSuva.Mem.FindPtr
import CompatSuva.Mem.Hashing
import CompatSuva.Scl.Io
import CompatSuva.Scl.Transfers
import CompatSuva.Scl.Types
import CompatSuva.Scl.ByteOrder
import CompatSuva.Scl.Writer
import CompatSuva.Scl.Outbox
import CompatSuva.Scl.WriterBuilds
import CompatSuva.Scl.Reader
import CompatSuva.Scl.Decode
import CompatSuva.Scl.RoundTrip
import CompatSuva.Scl.Bounds
import CompatSuva.Scl.Outgoing
import CompatSuva.Scl.Arguments
import CompatSuva.Scl.WireFormat
import CompatSuva.Scl.SendFailures
import CompatSuva.Scl.QueueFailures
import CompatSuva.Scl.PointerTable
import CompatSuva.Conn.Process
import CompatSuva.Conn.Invariant
import CompatSuva.Conn.Steps
import CompatSuva.Conn.Requests
import CompatSuva.Conn.Open
import CompatSuva.Conn.Runs
import CompatSuva.Conn.Success
import CompatSuva.Conn.Isolation
import CompatSuva.Conn.FailedOpen
import CompatSuva.Conn.Lifetimes
import CompatSuva.Conn.Exchanges
import CompatSuva.Audit.Process
import CompatSuva.Audit.Requests
import CompatSuva.Audit.WorkingDir
import CompatSuva.Audit.FailedExec
import CompatSuva.Audit.Children
import CompatSuva.Audit.Buffer
import CompatSuva.Audit.BufferBounds
import CompatSuva.Audit.BufferReuse
import CompatSuva.Audit.BufferFailure
import CompatSuva.Audit.Match
import CompatSuva.Audit.UidZeros
import CompatSuva.Audit.DbDiff
import CompatSuva.Audit.FileCopy
import CompatSuva.Audit.ArgVector
import CompatSuva.Audit.History
import CompatSuva.Audit.Utilities
import CompatSuva.Audit.Descriptors
import CompatSuva.Suvlet.Inlines
import CompatSuva.Suvlet.FileHandle
import CompatSuva.Suvlet.FileSys
import CompatSuva.Suvlet.Receiver
import CompatSuva.Suvlet.Loop
import CompatSuva.Suvlet.Handlers
import CompatSuva.Suvlet.Functions
import CompatSuva.Suvlet.Lockstep
import CompatSuva.Crc.Checksum
import CompatSuva.Crc.SignExtension
import CompatSuva.Crc.Burst
import CompatSuva.Crc.XferChunk
import CompatSuva.Local.Session
import CompatSuva.Local.UnexpectedReturn
import CompatSuva.Local.Xfer
import CompatSuva.Local.Calls
import CompatSuva.Local.Agreement
import CompatSuva.Local.Transfer
import CompatSuva.Local.Progress
import CompatSuva.Local.Steps
import CompatSuva.Local.Exits
import CompatSuva.Local.Adapters
import CompatSuva.Local.Divisors
import CompatSuva.Local.Copies
import CompatSuva.Local.Direct
import CompatSuva.Sutil.ArgArray
import CompatSuva.Sutil.DirArray
import CompatSuva.Sutil.LegalName
import CompatSuva.Sutil.PidLock
import CompatSuva.Sutil.DynArray
import CompatSuva.Sutil.Arrays
import CompatSuva.Software.Payload
import CompatSuva.Software.Confinement
import CompatSuva.Software.Cobalt
import CompatSuva.Software.CobaltNames
import CompatSuva.Software.PackageList
import CompatSuva.Software.Written
import CompatSuva.Software.Sessions
import CompatSuva.DeviceInfo.Disk
import CompatSuva.DeviceInfo.ReportBuffers
import CompatSuva.DeviceInfo.DiskTotals
import CompatSuva.DeviceInfo.Proc
