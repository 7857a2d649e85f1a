import CsappCode.Library.Recency
import CsappCode.Library.Interleaving
import CsappCode.Library.Transitions
import CsappCode.Library.ReadersWriters
import CsappCode.Library.Clients
import CsappCode.Library.Scanf
import CsappCode.Library.ScanfItems
import CsappCode.Library.ScanfTokens
import CsappCode.Library.Printf
import CsappCode.Library.SelfPrint
import CsappCode.Library.Reordering
import CsappCode.Library.WrappingRing
import CsappCode.Library.Ownership
import CsappCode.Csapp.Rio
import CsappCode.Csapp.Lines
import CsappCode.Csapp.Streams
import CsappCode.Library.Source
import CsappCode.Csapp.Calls
import CsappCode.Library.Loops
import CsappCode.CacheLab.Csim
import CsappCode.CacheLab.SetSimulation
import CsappCode.CacheLab.Refinement
import CsappCode.CacheLab.Traces
import CsappCode.CacheLab.TraceFile
import CsappCode.CacheLab.TestTrans
import CsappCode.CacheLab.TraceRecords
import CsappCode.CacheLab.Decomposition
import CsappCode.CacheLab.Access
import CsappCode.CacheLab.Agreement
import CsappCode.CacheLab.Conservation
import CsappCode.CacheLab.Independence
import CsappCode.CacheLab.SetInvariant
import CsappCode.CacheLab.Trans
import CsappCode.Threads.Sbuf
import CsappCode.Threads.BoundedBuffer
import CsappCode.Threads.SbufModule
import CsappCode.Threads.Progress
import CsappCode.Threads.RingIndices
import CsappCode.Threads.Handoff
import CsappCode.Threads.EchoCnt
import CsappCode.Threads.ByteCount
import CsappCode.Threads.Mutex
import CsappCode.ProxyLab.Memory
import CsappCode.ProxyLab.Request
import CsappCode.ProxyLab.Uri
import CsappCode.ProxyLab.Cache
import CsappCode.ProxyLab.Exclusion
import CsappCode.ProxyLab.Doit
import CsappCode.ProxyLab.Survival
import CsappCode.ProxyLab.Fields
import CsappCode.ProxyLab.Replay
import CsappCode.ProxyLab.CacheKey
import CsappCode.ProxyLab.SendBuffer
import CsappCode.ProxyLab.Lookup
import CsappCode.ProxyLab.Concurrent
import CsappCode.ProxyLab.Races
import CsappCode.ProxyLab.Forwarding
import CsappCode.ProxyLab.RelayLoop
import CsappCode.ProxyLab.UriSearch
import CsappCode.ProxyLab.Provenance
import CsappCode.ProxyLab.ObjectBuffer
import CsappCode.ProxyLab.ComposedSize
import CsappCode.Tiny.Tiny
import CsappCode.Tiny.Uri
import CsappCode.Tiny.Responses
import CsappCode.Tiny.Requests
import CsappCode.Tiny.BehindProxy
import CsappCode.Tiny.Service
import CsappCode.Tiny.Adder
import CsappCode.Server.Pool
import CsappCode.Server.Echo
import CsappCode.Server.PoolInvariant
import CsappCode.Server.AddClient
import CsappCode.Server.Scan
import CsappCode.Server.Processes
import CsappCode.Library.ByteMemory
import CsappCode.MallocLab.Mm
import CsappCode.MallocLab.Safety
import CsappCode.MallocLab.Machine32
import CsappCode.MallocLab.Mdriver
import CsappCode.MallocLab.Requests
import CsappCode.MallocLab.Overlap
import CsappCode.MallocLab.Acceptance
import CsappCode.MallocLab.Measurement
import CsappCode.MallocLab.ReadTrace
import CsappCode.Library.KBest
import CsappCode.MallocLab.Fcyc
import CsappCode.ShellLab.Jobs
import CsappCode.Library.QuotedWords
import CsappCode.ShellLab.Parseline
import CsappCode.Library.PackedFields
import CsappCode.DataLab.Words
import CsappCode.DataLab.Signed
import CsappCode.DataLab.BitCount
import CsappCode.Library.HighestBit
import CsappCode.DataLab.Ilog2
import CsappCode.Library.BinaryFormat
import CsappCode.DataLab.FloatTwice
import CsappCode.Library.Rounding
import CsappCode.DataLab.Puzzles
import CsappCode.DataLab.Floats
import CsappCode.DataLab.Btest
import CsappCode.DataLab.Verdicts
import CsappCode.DataLab.TestSet
