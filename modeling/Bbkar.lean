import Bbkar.KeySort
import Bbkar.ParentForest
import Bbkar.Walks
import Bbkar.Decimals
import Bbkar.Timestamp
import Bbkar.DestMeta
import Bbkar.Plan
import Bbkar.Planner
import Bbkar.Digits
import Bbkar.DepthCache
import Bbkar.PlanLoop
import Bbkar.PlanParents
import Bbkar.Resume
import Bbkar.SetBack
import Bbkar.Restore
import Bbkar.RestoreClosure
import Bbkar.RestoreTargets
import Bbkar.Effects
import Bbkar.Codec
import Bbkar.ObjectStore
import Bbkar.World
import Bbkar.ChunkedWriter
import Bbkar.Filling
import Bbkar.ChunkParts
import Bbkar.ChunkStreamReader
import Bbkar.Files
import Bbkar.LocalMeta
import Bbkar.Wildcard
import Bbkar.PrefixRows
import Bbkar.Glob
import Bbkar.Run
import Bbkar.RunSpec
import Bbkar.SendIterator
import Bbkar.PlanRun
import Bbkar.ReadPaths
import Bbkar.History
import Bbkar.FailedSend
import Bbkar.CrashConsistency
import Bbkar.SendReceive
import Bbkar.SuffixGrammar
import Bbkar.InspectSource
import Bbkar.Chronology
import Bbkar.RestoreRun
import Bbkar.ReceivePipe
import Bbkar.SudoSession
import Bbkar.EndToEnd
import Bbkar.RestoreRetries
import Bbkar.Convergence
import Bbkar.PlanDates
import Bbkar.ParentWalks
import Bbkar.Calendar
import Bbkar.FullInterval
import Bbkar.CostRuns
import Bbkar.FewestFulls
import Bbkar.Paired
import Bbkar.Lockstep
import Bbkar.VolumeKeys
import Bbkar.Totals
import Bbkar.VolumeLockstep
import Bbkar.VisitedVolumes
import Bbkar.RunSchedules
import Bbkar.VolumeOrder
import Bbkar.DryRun
import Bbkar.Forecast
import Bbkar.Overlap
import Bbkar.SourcePartition
import Bbkar.DataModel
import Bbkar.MetaFile
import Bbkar.DryRestore
import Bbkar.DepthMoments
import Bbkar.RestoreFrame
import Bbkar.SortedSets
import Bbkar.Ls
import Bbkar.LsPlan
import Bbkar.Words
import Bbkar.Durations
import Bbkar.ConfigFile
import Bbkar.PartFileSizes
import Bbkar.TimedWriter
import Bbkar.SizeAccounting
import Bbkar.SyncSelection
import Bbkar.Status
import Bbkar.RestoreBeside
import Bbkar.RestoreIsolation
import Bbkar.TouchedParts
import Bbkar.Remnants
import Bbkar.BackendWrites
import Bbkar.Backends
import Bbkar.SharedDestination
import Bbkar.Preservation
import Bbkar.Commands
