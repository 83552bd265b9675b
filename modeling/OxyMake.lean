import OxyMake.BuiltTargets
import OxyMake.CancelExactness
import OxyMake.CancelReports
import OxyMake.ClaimLeases
import OxyMake.ClaimedLaunches
import OxyMake.CleanSafety
import OxyMake.ConfinedWrites
import OxyMake.ConsumerCounts
import OxyMake.CriticalPath
import OxyMake.DirectoryCache
import OxyMake.DiskWriter
import OxyMake.EnvironmentCommands
import OxyMake.FinalizeAgreement
import OxyMake.ForcedRebuild
import OxyMake.GeneratedPython
import OxyMake.HonouredRules
import OxyMake.IncludeMerging
import OxyMake.InputBinding
import OxyMake.InstanceUniqueness
import OxyMake.Liveness
import OxyMake.LockfileDrift
import OxyMake.LoopLimits
import OxyMake.NoOpRebuild
import OxyMake.OrphanedEntries
import OxyMake.OutputLocks
import OxyMake.PatternGrammar
import OxyMake.PatternRegexes
import OxyMake.PeerCompletions
import OxyMake.RemoteFollow
import OxyMake.ResolutionStack
import OxyMake.ResourceClasses
import OxyMake.ResumeOracle
import OxyMake.RetryBudget
import OxyMake.RunAttribution
import OxyMake.SacctDecoding
import OxyMake.SlurmAgreement
import OxyMake.SourceDiscovery
import OxyMake.SubmittedGraph
import OxyMake.SyncOwnership
import OxyMake.TaskVerdicts
import OxyMake.TranslatedCommands
import OxyMake.WarmDispatch
import OxyMake.WarmEnvironments
import OxyMake.WindingDown
