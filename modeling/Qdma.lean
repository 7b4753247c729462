import Qdma.Buffers
import Qdma.Conservation
import Qdma.Membership
import Qdma.Resources
import Qdma.Enabled
import Qdma.Teardown
import Qdma.Fifo
import Qdma.Pointers
import Qdma.Counts
import Qdma.Indirect
import Qdma.MboxVf
import Qdma.Locks
import Qdma.Leave
import Qdma.Agree
import Qdma.MboxCall
import Qdma.FlIndex
import Qdma.Doorbells
import Qdma.IntrCtxt
import Qdma.Coal
import Qdma.Devices
import Qdma.VfTable
import Qdma.PostExact
import Qdma.Deliver
import Qdma.Close
import Qdma.Wakeup
import Qdma.Whole
import Qdma.VecMap
import Qdma.Workers
import Qdma.Mapping
import Qdma.QResource
import Qdma.Xpdev
import Qdma.OpenAll
import Qdma.UserBuf
import Qdma.Dump
import Qdma.DumpText
import Qdma.CtxtScripts
import Qdma.NlMsg
import Qdma.NlQueue
import Qdma.CmdParse
import Qdma.CmdLine
import Qdma.CmdQueue
import Qdma.CmdNumbers
import Qdma.PageOwners
import Qdma.QdmaThread
import Qdma.DmaOrder
import Qdma.Drain
import Qdma.Dmactl
import Qdma.MboxLock
import Qdma.Lookup
import Qdma.Tools
