import ToolLib.Base.System
import ToolLib.Base.TwoStage
import ToolLib.Base.Count
import ToolLib.Base.Mask
import ToolLib.Base.Tokens
import ToolLib.Base.EventBox
import ToolLib.Base.HeapOrder
import ToolLib.Base.Logged
import ToolLib.Base.Chains
import ToolLib.Base.Outputs
import ToolLib.Base.Selected
import ToolLib.Base.SlackMin
import ToolLib.Base.Loop
import ToolLib.Base.Access
import ToolLib.Base.Strings
import ToolLib.Base.Blocks
import ToolLib.Base.Ring
import ToolLib.Base.LinkedList
import ToolLib.Base.Recency
import ToolLib.Base.Sections
import ToolLib.Pusher.Frames
import ToolLib.Pusher.Threads
import ToolLib.Pusher.Delivery
import ToolLib.Pusher.Head
import ToolLib.Pusher.Stored
import ToolLib.Pusher.ReadData
import ToolLib.Pusher.Rejected
import ToolLib.Pusher.Handoff
import ToolLib.Simple.ObjectQueue
import ToolLib.Simple.Engine
import ToolLib.Simple.Dispatch
import ToolLib.Simple.TimeManager
import ToolLib.Simple.Passes
import ToolLib.Simple.TimeCredit
import ToolLib.Simple.TimeEarly
import ToolLib.Simple.SharedQueues
import ToolLib.Simple.QueueLinks
import ToolLib.Common.OSMutexRW
import ToolLib.Common.RWExclusion
import ToolLib.Common.RWWakeup
import ToolLib.Common.OSHeap
import ToolLib.Common.Task
import ToolLib.Common.TaskPlacement
import ToolLib.Common.TaskEvents
import ToolLib.Common.TaskAlive
import ToolLib.Common.TaskHeap
import ToolLib.Common.TaskTimers
import ToolLib.Common.IdleTask
import ToolLib.Common.SelectEvents
import ToolLib.Common.SelectOnce
import ToolLib.Common.SelectStale
import ToolLib.Common.SelectPipe
import ToolLib.Common.SelectDrain
import ToolLib.Common.SelectScan
import ToolLib.Common.EpollEvents
import ToolLib.Common.EpollDelivery
import ToolLib.Common.EventContext
import ToolLib.Common.ContextIDs
import ToolLib.Common.ContextWrap
import ToolLib.Common.OSRef
import ToolLib.Common.RefCounts
import ToolLib.Common.TaskPickers
import ToolLib.Common.URLRoundTrip
import ToolLib.Common.MetaInfoParse
import ToolLib.Common.FileCacheLinux
import ToolLib.Common.FileCacheErrors
import ToolLib.Common.FileCacheReuse
import ToolLib.Common.FileBlocks
import ToolLib.Common.SDPLossless
import ToolLib.Common.Sleep
import ToolLib.Common.TimeoutTask
import ToolLib.Common.OSHeapRuns
import ToolLib.Common.SelectClose
import ToolLib.Common.LockBalance
import ToolLib.Common.CallLocked
import ToolLib.Common.ParserStream
import ToolLib.Common.URLLists
import ToolLib.Common.MetaInfoLists
import ToolLib.Common.QueryLookup
import ToolLib.Common.DecodeArg
import ToolLib.Common.SDPReuse
import ToolLib.Common.SDPInsert
import ToolLib.Common.UserAgentSplit
import ToolLib.Common.StringFormatter
import ToolLib.Common.GetQuotedWord
import ToolLib.Common.UDPSocketPool
import ToolLib.MultiMedia.FillAudio
import ToolLib.Tools.StrCompare
import ToolLib.Tools.FindString
import ToolLib.Tools.OSHashTable
import ToolLib.StateThreads.HeapRuns
import ToolLib.StateThreads.SchedLock
import ToolLib.StateThreads.SchedJoin
import ToolLib.StateThreads.EventAgree
