import CommSpeed.Prog.Monitor
import CommSpeed.Bytes.Order
import CommSpeed.Number.Strtoul
import CommSpeed.Rdma.Options
import CommSpeed.Rdma.Release
import CommSpeed.Rdma.Descriptors
import CommSpeed.Rdma.WorkRequests
import CommSpeed.Rdma.Outcome
import CommSpeed.Rdma.Polling
import CommSpeed.Rdma.Agreement
import CommSpeed.Rdma.Framing
import CommSpeed.Rdma.Ending
import CommSpeed.System.Transition
import CommSpeed.Rdma.Handshake
import CommSpeed.Rdma.Roles
import CommSpeed.Rdma.Barrier
import CommSpeed.Loop.While
import CommSpeed.Loop.Stride
import CommSpeed.Cache.Lru
import CommSpeed.Mem.Permutate
import CommSpeed.Mem.Chase
import CommSpeed.Mem.Coverage
import CommSpeed.Mem.Cas
import CommSpeed.Mem.Bench
import CommSpeed.Cache.SetAssoc
import CommSpeed.Mem.Levels
import CommSpeed.Clc.MyClock
import CommSpeed.Net.Network
import CommSpeed.Net.Receiver
import CommSpeed.Disk.Generate
import CommSpeed.Pcm.Asynch
import CommSpeed.Pcm.Extender
import CommSpeed.Sync.Atomic
import CommSpeed.Sync.Retry
import CommSpeed.Prog.Exchange
import CommSpeed.Rdma.Waiting
import CommSpeed.Net.Echo
import CommSpeed.Net.Timing
import CommSpeed.Number.Wrapping
import CommSpeed.Pcm.Counters
import CommSpeed.Pcm.Qpi
import CommSpeed.Pcm.Residency
import CommSpeed.Hash.Murmur
import CommSpeed.Disk.RawFile
import CommSpeed.Net.Requests
import CommSpeed.Net.Server
import CommSpeed.Mem.CasLevels
import CommSpeed.Rdma.Usage
