import NomadLite.AcknowledgedCommit
import NomadLite.AlignedRuns
import NomadLite.ApplyLoop
import NomadLite.ApplyRefinement
import NomadLite.AssignmentPass
import NomadLite.AssignmentWakeups
import NomadLite.AtMostOnce
import NomadLite.BigEndian
import NomadLite.CallCommits
import NomadLite.CallOrder
import NomadLite.Calls
import NomadLite.Cancellation
import NomadLite.CapacityRejection
import NomadLite.CatchUp
import NomadLite.CliListing
import NomadLite.CliRedirect
import NomadLite.ClientCluster
import NomadLite.ClientService
import NomadLite.Cluster
import NomadLite.ClusterLog
import NomadLite.ClusterRestart
import NomadLite.ColdStart
import NomadLite.CommitCount
import NomadLite.CommitHistory
import NomadLite.CommitKept
import NomadLite.CommitLearned
import NomadLite.CommitMajority
import NomadLite.CommitProgress
import NomadLite.CommittedLog
import NomadLite.CompactionView
import NomadLite.CompletionReports
import NomadLite.ConcurrentAppend
import NomadLite.CrashRecovery
import NomadLite.CursorPaging
import NomadLite.Dashboard
import NomadLite.Delivery
import NomadLite.DirectWrites
import NomadLite.DiskMirror
import NomadLite.DurableEntries
import NomadLite.DurableNode
import NomadLite.DurableVotes
import NomadLite.ElectingQuorum
import NomadLite.ElectionProgress
import NomadLite.ElectionSafety
import NomadLite.GreedyLoad
import NomadLite.IndexArithmetic
import NomadLite.IndexPointers
import NomadLite.Job
import NomadLite.JobAccounts
import NomadLite.JobCluster
import NomadLite.JobEffects
import NomadLite.JobExecutions
import NomadLite.JobLedger
import NomadLite.JobLifeCycle
import NomadLite.JobListing
import NomadLite.JobOutputs
import NomadLite.JobQueue
import NomadLite.JobReplay
import NomadLite.JobSteps
import NomadLite.LeaderCompleteness
import NomadLite.LeaderNaming
import NomadLite.LeaderQueries
import NomadLite.LeaderTerms
import NomadLite.LoadCounter
import NomadLite.LogAlignment
import NomadLite.LogFollower
import NomadLite.LogLeader
import NomadLite.LogLink
import NomadLite.LogListings
import NomadLite.LogMatching
import NomadLite.LogRequests
import NomadLite.LogSimulation
import NomadLite.LogView
import NomadLite.MachineWord
import NomadLite.MajorityElection
import NomadLite.NodeStep
import NomadLite.NodeTasks
import NomadLite.NodeTransition
import NomadLite.Optimistic
import NomadLite.OrderedScan
import NomadLite.PeerRequests
import NomadLite.QueueMoves
import NomadLite.QueueRestart
import NomadLite.QueueTracking
import NomadLite.RaftLog
import NomadLite.RaftNode
import NomadLite.RaftState
import NomadLite.RefusedCalls
import NomadLite.ReleaseCalls
import NomadLite.ReleaseStorage
import NomadLite.RepeatedRequests
import NomadLite.ReplicaCommit
import NomadLite.ReplicaConvergence
import NomadLite.Replicas
import NomadLite.ReplicatedLog
import NomadLite.ReplyAgreement
import NomadLite.ReportPaths
import NomadLite.Rpc
import NomadLite.Runs
import NomadLite.SchedulerLoop
import NomadLite.ServiceSteps
import NomadLite.SettledQueues
import NomadLite.SnapshotCatchUp
import NomadLite.SnapshotFlow
import NomadLite.SnapshotInstall
import NomadLite.SnapshotPrefix
import NomadLite.SnapshotRebuild
import NomadLite.SnapshotRecords
import NomadLite.StableSort
import NomadLite.StaleReplies
import NomadLite.StaleSnapshot
import NomadLite.StandardStorage
import NomadLite.StandardWire
import NomadLite.StateMachineSafety
import NomadLite.Storage
import NomadLite.StorageBytes
import NomadLite.StorageRecord
import NomadLite.StoredCluster
import NomadLite.StoredSafety
import NomadLite.SubmitRace
import NomadLite.Tally
import NomadLite.TermMonotone
import NomadLite.TextCodec
import NomadLite.TimeFilters
import NomadLite.VoteCount
import NomadLite.VoteOnce
import NomadLite.WholeLog
import NomadLite.Wire
import NomadLite.WireRoundTrip
import NomadLite.WorkerIterations
import NomadLite.WorkerLoop
import NomadLite.WorkerSteps
