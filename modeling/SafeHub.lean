import SafeHub.Client.Consolidate
import SafeHub.Client.CosigBinding
import SafeHub.Client.ConsolidateTranscript
import SafeHub.Client.EpochCommitments
import SafeHub.Client.HonestConsolidation
import SafeHub.Client.RepoCmd
import SafeHub.Lib.DolevYao
import SafeHub.System.Steps
import SafeHub.System.Retention
import SafeHub.System.Symbolic
import SafeHub.System.Secrecy
import SafeHub.System.HostView
import SafeHub.System.Windows
import SafeHub.System.KeyAgreement
import SafeHub.Client.Heads
import SafeHub.Client.PushPlan
import SafeHub.Client.Fetch
import SafeHub.System.ForcePush
import SafeHub.System.Removal
import SafeHub.Client.HeadSignature
import SafeHub.Client.Checkpoint
import SafeHub.Client.Identity
import SafeHub.Types.Canon
import SafeHub.Storage.Error
import SafeHub.Storage.HeadLog
import SafeHub.Storage.HeadLogCrash
import SafeHub.Lib.PlainWrite
import SafeHub.Storage.Blobs
import SafeHub.Storage.Queue
import SafeHub.System.Welcome
import SafeHub.System.Inbox
import SafeHub.System.SealedObjects
import SafeHub.System.AppliedCursor
import SafeHub.Client.Push
import SafeHub.System.SealUniqueness
import SafeHub.System.RefUpdates
import SafeHub.System.RefFrame
import SafeHub.Client.HeadChain
import SafeHub.Client.BundleBinding
import SafeHub.Client.RefPush
import SafeHub.Client.RefCommands
import SafeHub.System.ReplayClosure
import SafeHub.Client.Compare
import SafeHub.Client.CompareSpec
import SafeHub.Client.CheckpointRecut
import SafeHub.Lib.Linearization
import SafeHub.Server.Members
import SafeHub.Lib.Paths
import SafeHub.Server.RepoPaths
import SafeHub.Lib.FileTree
import SafeHub.Server.KeyPackages
import SafeHub.Server.Directory
import SafeHub.Server.HostRoutes
import SafeHub.Server.HostSteps
import SafeHub.Server.Deletion
import SafeHub.Server.BlobScope
import SafeHub.Lib.Overlay
import SafeHub.Client.Collab
import SafeHub.System.CollabCreates
import SafeHub.System.CollabEdits
import SafeHub.System.HonestViews
import SafeHub.System.HonestHost
import SafeHub.Lib.OpenFiles
import SafeHub.System.TempBundles
import SafeHub.System.TipReaders
import SafeHub.System.ReaderAgreement
import SafeHub.Types.CanonicalBytes
import SafeHub.Lib.EditScript
import SafeHub.Lib.Lines
import SafeHub.Lib.Varint
import SafeHub.SGit.Diff
import SafeHub.SGit.OpCodec
import SafeHub.SGit.Crypto
import SafeHub.SGit.Correctness
import SafeHub.Client.ForcePushVerdict
import SafeHub.Lib.ThreeWay
import SafeHub.Client.RefMerge
import SafeHub.Crypto.DkrHistory
import SafeHub.System.KeyStability
import SafeHub.Lib.HashTree
import SafeHub.SGit.RootBinding
import SafeHub.SGit.Command
import SafeHub.SGit.TagTrust
import SafeHub.SGit.Grants
import SafeHub.Lib.Perform
import SafeHub.SGit.Push
import SafeHub.SGit.CtFiles
import SafeHub.SGit.Consistency
import SafeHub.Client.MerklePosition
import SafeHub.System.HeadPages
import SafeHub.Client.ChunkStream
import SafeHub.Client.ChunkBinding
import SafeHub.Lib.WriteThrough
import SafeHub.Server.Accounts
import SafeHub.Lib.FileEdits
import SafeHub.Lib.Numbered
import SafeHub.Server.CollabIndex
import SafeHub.Crypto.AeadSlices
import SafeHub.Crypto.AeadBinding
import SafeHub.SGit.WordOps
import SafeHub.SGit.UpdateInPlace
import SafeHub.SGit.MatchedRuns
import SafeHub.Client.DefaultBranch
import SafeHub.Lib.Utf8Lossy
import SafeHub.Lib.Percent
import SafeHub.Browse.Links
import SafeHub.Lib.Trim
import SafeHub.Client.Lfs
import SafeHub.Client.LfsRuns
import SafeHub.SGit.SoleWriter
import SafeHub.SGit.TreeFidelity
import SafeHub.Lib.CommonSubsequence
import SafeHub.SGit.LongestPairs
import SafeHub.SGit.CleanupRounds
import SafeHub.Browse.Commits
import SafeHub.Crypto.TreeMath
import SafeHub.Client.RemoteHelper
import SafeHub.Crypto.ForwardSecrecy
import SafeHub.Browse.Html
import SafeHub.Client.CollabViews
import SafeHub.Server.Markdown
import SafeHub.Crypto.TreeSync
import SafeHub.Crypto.MlsGroup
import SafeHub.Crypto.KeyKnowledge
