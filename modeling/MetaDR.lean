import MetaDR.Lib.Split
import MetaDR.Key
import MetaDR.KvStore
import MetaDR.KvStoreSpec
import MetaDR.Namespace
import MetaDR.PathMap
import MetaDR.KeyGrammar
import MetaDR.Children
import MetaDR.OpLog
import MetaDR.Replica
import MetaDR.VsReplicator
import MetaDR.ViewChangeHandler
import MetaDR.RecoveryHandler
import MetaDR.Lib.Majority
import MetaDR.Lib.Run
import MetaDR.Cluster
import MetaDR.Lib.Viewstamp
import MetaDR.Lib.Chosen
import MetaDR.Move
import MetaDR.Performs
import MetaDR.Sections
import MetaDR.Moves
import MetaDR.Peers
import MetaDR.Messages
import MetaDR.Views
import MetaDR.Election
import MetaDR.Follows
import MetaDR.Refinement
import MetaDR.LogMatching
import MetaDR.LogShape
import MetaDR.Answers
import MetaDR.Agreement
import MetaDR.Store
import MetaDR.SingleView
import MetaDR.Freshness
import MetaDR.Selection
import MetaDR.Replay
import MetaDR.Deliver
import MetaDR.Alone
import MetaDR.AckRace
import MetaDR.Backup
import MetaDR.Recovery
import MetaDR.History
import MetaDR.LockOrder
import MetaDR.Healthy
import MetaDR.QuorumWait
import MetaDR.Lib.Lockstep
import MetaDR.Assertions
import MetaDR.Overlap
import MetaDR.FailedCall
import MetaDR.RecoveryWorker
import MetaDR.OldView
import MetaDR.Tally
import MetaDR.VoteCount
import MetaDR.Snapshot
import MetaDR.Membership
import MetaDR.CandidateSearch
import MetaDR.Lib.Fields
import MetaDR.Configurator
import MetaDR.ConfigFile
import MetaDR.BootStrap
import MetaDR.Shell
import MetaDR.Lib.Wildcard
import MetaDR.ServerDb
import MetaDR.Lib.Order
import MetaDR.Linear
import MetaDR.Authority
import MetaDR.Serving
import MetaDR.Lib.Codec
import MetaDR.Lib.Xdr
import MetaDR.Carried
import MetaDR.Asked
import MetaDR.Wire
import MetaDR.Client
import MetaDR.Failover
import MetaDR.Rejoin
import MetaDR.Lib.Threads
import MetaDR.ConcurrentQueue
import MetaDR.CatchUp
import MetaDR.Response
import MetaDR.Invoke
