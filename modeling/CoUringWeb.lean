import CoUringWeb.Framework.Transition
import CoUringWeb.Framework.SortedMap
import CoUringWeb.Framework.RingBuffer
import CoUringWeb.Framework.Machine
import CoUringWeb.Queue.LockfreeQueue
import CoUringWeb.Queue.Interleaved
import CoUringWeb.Core.IoRequest
import CoUringWeb.Core.Timer
import CoUringWeb.Core.Uring
import CoUringWeb.Core.UringPoll
import CoUringWeb.Core.Epoll
import CoUringWeb.Core.EpollRuns
import CoUringWeb.Core.EpollExpiry
import CoUringWeb.Framework.LexicalPath
import CoUringWeb.Http.Request
import CoUringWeb.Http.StaticPath
import CoUringWeb.Json.Parser
import CoUringWeb.Framework.JsonSyntax
import CoUringWeb.Json.Tokens
import CoUringWeb.Json.Reading
import CoUringWeb.Json.ParserSound
import CoUringWeb.Json.ParserComplete
import CoUringWeb.Json.Unambiguous
import CoUringWeb.Json.Denotation
import CoUringWeb.Json.Conformance
import CoUringWeb.Json.Dump
import CoUringWeb.Json.RoundTrip
import CoUringWeb.Framework.DeadlineTable
import CoUringWeb.Core.TimerRuns
import CoUringWeb.Json.Safety
import CoUringWeb.Core.EpollWrites
import CoUringWeb.Core.EpollInterest
import CoUringWeb.Core.EpollPointers
import CoUringWeb.Core.WriteContract
import CoUringWeb.Http.Reading
import CoUringWeb.Http.Soundness
import CoUringWeb.Framework.Pieces
import CoUringWeb.Utils.Split
import CoUringWeb.Framework.Directory
import CoUringWeb.Log.Rotate
import CoUringWeb.Http.Head
import CoUringWeb.Framework.JsonStrings
import CoUringWeb.Json.Strings
import CoUringWeb.Framework.Awaiting
import CoUringWeb.Framework.HashSwitch
import CoUringWeb.Http.ContentType
import CoUringWeb.Http.Response
import CoUringWeb.Http.Rendering
import CoUringWeb.Http.StaticWeb
import CoUringWeb.Json.Objects
import CoUringWeb.Core.TcpServer
import CoUringWeb.Json.Children
import CoUringWeb.Json.Integers
import CoUringWeb.Json.Copies
import CoUringWeb.Json.ArrayTurns
import CoUringWeb.Json.MemberLists
import CoUringWeb.Log.Record
import CoUringWeb.Utils.Deflate
import CoUringWeb.Log.RotateFailures
import CoUringWeb.Core.UringTimers
import CoUringWeb.Core.SchedulerLoop
import CoUringWeb.Config.Init
import CoUringWeb.Utils.Join
import CoUringWeb.Core.TimerMaps
import CoUringWeb.Framework.LeadBytes
import CoUringWeb.Utils.CodePoints
import CoUringWeb.Log.Recognition
import CoUringWeb.Framework.Interleaving
import CoUringWeb.Core.UringLoop
import CoUringWeb.Core.UringLoopRuns
import CoUringWeb.Core.UringWakeups
import CoUringWeb.Http.StaticWebRuns
import CoUringWeb.Echo.Echo
import CoUringWeb.Queue.Linearization
import CoUringWeb.Core.TcpServerThreads
import CoUringWeb.Log.RotateRuns
import CoUringWeb.Core.ServerProcess
import CoUringWeb.Http.StaticWebServer
import CoUringWeb.Json.Reprint
import CoUringWeb.Http.Replies
