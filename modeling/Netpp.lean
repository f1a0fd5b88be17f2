import Netpp.Lib.Program
import Netpp.Lib.Slice
import Netpp.Lib.Chain
import Netpp.Lib.Endian
import Netpp.Piece.Memory
import Netpp.Piece.Queue
import Netpp.Piece.Pool
import Netpp.Piece.PoolInvariant
import Netpp.Buffer.Basic
import Netpp.Buffer.Spec
import Netpp.Buffer.WriteSpec
import Netpp.Buffer.MoveSpec
import Netpp.Buffer.Family
import Netpp.Buffer.Deque
import Netpp.Conn.Buffers
import Netpp.Protobuf.InputStream
import Netpp.Protobuf.OutputStream
import Netpp.Protobuf.Codec
import Netpp.Protobuf.FrameLength
import Netpp.Protobuf.Areas
import Netpp.Protobuf.Isolation
import Netpp.Protobuf.Delivery
import Netpp.Conn.TCPConn
import Netpp.Conn.Lifecycle
import Netpp.Conn.Reset
import Netpp.Conn.Sending
import Netpp.Conn.Custody
import Netpp.Conn.Conservation
import Netpp.Conn.Stream
import Netpp.Conn.HandleClose
import Netpp.Conn.Ownership
import Netpp.Lib.Machine
import Netpp.Server.TCPServer
import Netpp.Server.Tracking
import Netpp.Server.Stop
import Netpp.Server.AfterStop
import Netpp.Client.TCPClient
import Netpp.Client.Tracking
import Netpp.Client.Connecting
import Netpp.Client.Exclusive
import Netpp.Client.Disconnect
import Netpp.Client.Repeated
import Netpp.Loop.EventLoopThread
import Netpp.Loop.ThreadStopped
import Netpp.Loop.EventLoopThreadPool
import Netpp.Loop.PoolTracking
import Netpp.Loop.PoolStatus
import Netpp.Loop.DoneCallback
import Netpp.Buffer.Peek
import Netpp.Conn.Handover
import Netpp.Protobuf.ParseResult
import Netpp.Protobuf.Encoder
import Netpp.Protobuf.TypeName
import Netpp.Conn.SingleWriter
import Netpp.Loop.RunEvery
import Netpp.Conn.Dequeue
import Netpp.Conn.Accounting
import Netpp.Buffer.Drain
import Netpp.Protobuf.OutputContract
import Netpp.Protobuf.InputContract
import Netpp.Protobuf.Skip
import Netpp.Protobuf.Termination
import Netpp.Loop.TimerService
import Netpp.Loop.Cancel
import Netpp.Loop.DelayedClose
import Netpp.Lib.RoundRobin
import Netpp.Loop.Serving
import Netpp.Loop.NextLoop
import Netpp.Server.Pool
import Netpp.Server.Accepting
import Netpp.Server.Spreading
import Netpp.Conn.Reading
import Netpp.Conn.Contents
import Netpp.Conn.Link
import Netpp.Piece.PoolThreads
import Netpp.Lib.ByteReader
import Netpp.Protobuf.WireFormat
import Netpp.Echo.Message
import Netpp.Protobuf.Callbacks
import Netpp.Protobuf.Dispatcher
import Netpp.Echo.Codec
import Netpp.Conn.Soundness
import Netpp.Protobuf.Inbox
import Netpp.Echo.Peer
import Netpp.Echo.Turn
import Netpp.Lib.Dialogue
import Netpp.Echo.System
import Netpp.Lib.Numbering
import Netpp.Echo.Counting
