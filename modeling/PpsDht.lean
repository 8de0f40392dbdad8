import PpsDht.AddressText
import PpsDht.Basic
import PpsDht.Client
import PpsDht.ClientCat
import PpsDht.ClientInit
import PpsDht.ClientMemory
import PpsDht.ClientPlacement
import PpsDht.ClientPrograms
import PpsDht.Cluster
import PpsDht.ClusterProgress
import PpsDht.ClusterRun
import PpsDht.ClusterSteps
import PpsDht.Commands
import PpsDht.Dump
import PpsDht.DumpBuffer
import PpsDht.DumpDecoder
import PpsDht.DumpLoss
import PpsDht.ForeignTraffic
import PpsDht.Htable
import PpsDht.HtableDelete
import PpsDht.HtableMap
import PpsDht.KvList
import PpsDht.KvListMemory
import PpsDht.KvListRuns
import PpsDht.Launch
import PpsDht.Lib.Budget
import PpsDht.Lib.CString
import PpsDht.Lib.Chain
import PpsDht.Lib.Code
import PpsDht.Lib.Decimal
import PpsDht.Lib.FirstSeen
import PpsDht.Lib.Heap
import PpsDht.Lib.HeapProgram
import PpsDht.Lib.Interaction
import PpsDht.Lib.Loop
import PpsDht.Lib.Quorum
import PpsDht.Lib.Scan
import PpsDht.Lib.Transition
import PpsDht.ListNodes
import PpsDht.Listing
import PpsDht.Network
import PpsDht.NodeInit
import PpsDht.NodeListMemory
import PpsDht.Options
import PpsDht.PacketLog
import PpsDht.ReadQuorum
import PpsDht.RequestBuffer
import PpsDht.Ring
import PpsDht.RingCollect
import PpsDht.RingPlacement
import PpsDht.RingSuccessor
import PpsDht.RingWalk
import PpsDht.Server
import PpsDht.ServerFile
import PpsDht.ServerMap
import PpsDht.ServerMemory
import PpsDht.Session
import PpsDht.Store
import PpsDht.StoreConsistency
import PpsDht.StoreInvariant
import PpsDht.StoreRun
import PpsDht.TableLayout
import PpsDht.TableMemory
import PpsDht.TableRefinement
import PpsDht.TableRuns
import PpsDht.VoteCounter
import PpsDht.WriteQuorum
