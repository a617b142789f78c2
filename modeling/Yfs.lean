import Yfs.RpcReply
import Yfs.WireArgs
import Yfs.ConnectionStream
import Yfs.PaxosConfig
import Yfs.LockWaiters
import Yfs.LockAcquire
import Yfs.LockRevokes
import Yfs.LockRequests
import Yfs.LockReleaser
import Yfs.LockWakeups
import Yfs.LockQueues
import Yfs.LockAttach
import Yfs.ExtentTransparency
import Yfs.ExtentCoherence
import Yfs.LockShutdown
import Yfs.CallSites
import Yfs.DirCreates
import Yfs.DirEntries
import Yfs.LogCrash
import Yfs.LogRestore
import Yfs.RsmPrimary
import Yfs.ViewProposals
import Yfs.RefCount
import Yfs.Fifo
import Yfs.ThrPool
import Yfs.HandleBind
import Yfs.PollMgr
import Yfs.ConnectionCond
import Yfs.ConnectionPoll
import Yfs.ConnRefs
import Yfs.SerialProg
import Yfs.FileOps
import Yfs.DirSearch
import Yfs.DirLookup
import Yfs.DirSerial
import Yfs.Inums
import Yfs.CInt
import Yfs.StringBounds
import Yfs.ReadPdu
import Yfs.XidWindow
import Yfs.DirExact
import Yfs.DirPositions
import Yfs.DirNames
import Yfs.FileWrite
import Yfs.FileFlush
import Yfs.Custody
import Yfs.RpcBuffers
import Yfs.Quorum
import Yfs.ReplyWindows
import Yfs.MarshallGrowth
import Yfs.SelectHigh
import Yfs.ContainerBounds
import Yfs.Timespec
import Yfs.RetryLoop
import Yfs.SuccessorPrimary
import Yfs.PlainLock
import Yfs.FuseTree
import Yfs.FsOrder
import Yfs.RpcCancel
import Yfs.ClientRefs
import Yfs.SelfPipe
import Yfs.DirPages
import Yfs.ExtentTimes
import Yfs.PaxosRounds
import Yfs.RemoteCall
