import Osrv.Sfs.Faithful
import Osrv.Sfs.Transport
import Osrv.Sfs.Leak
import Osrv.Sfs.WellFormed
import Osrv.Sfs.MemStore
import Osrv.Sfs.LongText
import Osrv.Http.Hcstore
import Osrv.Obj.Refine
import Osrv.Obj.Served
import Osrv.Deps.Sequential
import Osrv.Deps.Interleave
import Osrv.Deps.Locks
import Osrv.Deps.Sound
import Osrv.Tcp.Put
import Osrv.Tcp.Segments
import Osrv.Tcp.Rejected
import Osrv.Http.Invariant
import Osrv.Http.Resume
import Osrv.Http.Answer
import Osrv.Http.Delivery
import Osrv.Http.KeepAlive
import Osrv.Http.Collect
import Osrv.Http.Process
import Osrv.Http.Complete
import Osrv.Client.Agree
import Osrv.Fronts.Framing
import Osrv.Http.Steps
import Osrv.Obj.Robj
import Osrv.Obj.LocalReads
import Osrv.Obj.Preserved
import Osrv.Queue.Deque
import Osrv.Queue.Ownership
import Osrv.Therver.Pool
import Osrv.Net.Offers
import Osrv.Http.Chunks
import Osrv.Sfs.Stat
import Osrv.Client.Close
import Osrv.Client.Whole
import Osrv.Client.Sessions
import Osrv.Tcp.FileStore
import Osrv.Tcp.Bounds
import Osrv.Http.Refusals
import Osrv.Http.LongLine
import Osrv.Http.Pipelined
import Osrv.Http.Heads
import Osrv.Http.Grammar
import Osrv.Lib.Ledger
import Osrv.Obj.Cells
import Osrv.Queue.Frame
import Osrv.Remote.Payload
import Osrv.Remote.Released
import Osrv.Obj.Removal
import Osrv.Deps.Tail
import Osrv.Http.Accumulator
import Osrv.Http.Recording
import Osrv.Deps.Layout
import Osrv.Rheap.Sizes
import Osrv.Rheap.Collected
import Osrv.Rheap.Consumed
import Osrv.Rheap.Untouched
import Osrv.Rheap.Agrees
import Osrv.Handles.Ask
import Osrv.Http.Uri
import Osrv.Lib.Monitor
import Osrv.Lib.Fair
import Osrv.Lib.Sink
import Osrv.Queue.Waiting
import Osrv.Therver.Threads
import Osrv.Therver.Sockets
import Osrv.Therver.Shutdown
import Osrv.Therver.Progress
import Osrv.Therver.Fork
import Osrv.Sfs.Delimited
import Osrv.Tcp.Filled
import Osrv.Client.Values
import Osrv.Handles.Files
import Osrv.Fronts.Clients
import Osrv.Fronts.Coherent
import Osrv.Deps.Reports
import Osrv.Http.Turn
import Osrv.Http.Written
import Osrv.Web.Asks
import Osrv.Web.Sessions
