import Builderbot.AcpClient.RemoteNoise
import Builderbot.Actions.Detection
import Builderbot.Actions.MatcherCoverage
import Builderbot.Actions.OutputDecoding
import Builderbot.Actions.Signals
import Builderbot.DiffViewer.BraceScopes
import Builderbot.DiffViewer.CharHighlights
import Builderbot.DiffViewer.LineClasses
import Builderbot.DiffViewer.LineDiffCache
import Builderbot.DiffViewer.ReviewState
import Builderbot.DiffViewer.ScrollSync
import Builderbot.DiffViewer.SearchMatches
import Builderbot.DiffViewer.SidebarTree
import Builderbot.DiffViewer.StructuralStack
import Builderbot.Git.BatchAgreement
import Builderbot.Git.UpstreamMissing
import Builderbot.Git.WorkingTree
import Builderbot.Penpal.AgentLifecycles
import Builderbot.Penpal.Anchors
import Builderbot.Penpal.CacheAgreement
import Builderbot.Penpal.CommentChanges
import Builderbot.Penpal.CommentHighlights
import Builderbot.Penpal.CommentOrder
import Builderbot.Penpal.Sidecars
import Builderbot.Penpal.Tabs
import Builderbot.Penpal.WatchSets
import Builderbot.Pm.FailedAdd
import Builderbot.Pm.FreeSlots
import Builderbot.Pm.Remotes
import Builderbot.Pm.RmConfined
import Builderbot.Staged.BackgroundSync
import Builderbot.Staged.BranchExclusivity
import Builderbot.Staged.CacheCompleteness
import Builderbot.Staged.CacheInvalidation
import Builderbot.Staged.CacheKeys
import Builderbot.Staged.CloneDirectories
import Builderbot.Staged.CloneLocks
import Builderbot.Staged.CommentPlacement
import Builderbot.Staged.CommentTracking
import Builderbot.Staged.CommitLists
import Builderbot.Staged.CommitPipelines
import Builderbot.Staged.DeferredCancellation
import Builderbot.Staged.EscapeSequences
import Builderbot.Staged.LaunchContext
import Builderbot.Staged.LaunchFailures
import Builderbot.Staged.MarkAllStale
import Builderbot.Staged.NoteFences
import Builderbot.Staged.PatchStats
import Builderbot.Staged.PipelineHandoff
import Builderbot.Staged.PipelineRun
import Builderbot.Staged.PollScheduler
import Builderbot.Staged.RunningSessions
import Builderbot.Staged.ShellEnvInvalidation
import Builderbot.Staged.SuggestedSteps
import Builderbot.Staged.TerminalStatus
import Builderbot.Staged.TimelineCache
import Builderbot.Staged.ToolCallRows
import Builderbot.Staged.WorkspaceDeletion
import Builderbot.Staged.WorktreeAssignment
