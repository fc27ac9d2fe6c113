import CodeOss.PieceTree.RbTreeSpec
import CodeOss.PieceTree.RbTreeRuns
import CodeOss.Edits.StringEditLaws
import CodeOss.Edits.NormalForm
import CodeOss.Edits.Rebase
import CodeOss.Undo.ChangeList
import CodeOss.Undo.EditStack
import CodeOss.UndoRedo.SnapshotLaws
import CodeOss.BracketPairs.CombineLaws
import CodeOss.BracketPairs.Concat23Trees
import CodeOss.Ipc.ChannelServerLaws
import CodeOss.Ipc.Framing
import CodeOss.Ipc.SerializationLaws
import CodeOss.Ipc.WebSocketLaws
import CodeOss.UserDataSync.SnippetsMerge
import CodeOss.UserDataSync.ExtensionsAgree
import CodeOss.Json.ReadersLaws
import CodeOss.Tokens.TokensFollow
import CodeOss.Tokens.MultilineAgree
import CodeOss.Tokens.SparseLaws
import CodeOss.Tokens.SparseStoreLaws
import CodeOss.AgentHost.AgentConvergence
import CodeOss.SearchTree.SearchTreeLaws
import CodeOss.Keybindings.DispatchLaws
import CodeOss.Settings.CacheLaws
import CodeOss.ContextKeys.NormalizationLaws
import CodeOss.Persistence.StorageLaws
import CodeOss.Library.Clamping
import CodeOss.Ui.SplitViewLaws
import CodeOss.Uri.Identity
import CodeOss.Glob.GlobLaws
import CodeOss.Buffer.BinaryIndexOf
import CodeOss.Buffer.Encodings
import CodeOss.EditorGroup.GroupLaws
import CodeOss.Persistence.MigratingStorage
import CodeOss.Cli.Tailf
import CodeOss.EditorGroup.GroupSerialization
import CodeOss.Cli.FlateStream
import CodeOss.Events.EmitterDelivery
import CodeOss.Cli.ExtractionRuns
import CodeOss.Folding.RegionLookup
import CodeOss.Folding.RangeMerge
import CodeOss.Terminal.CommandQuoting
import CodeOss.Async.LimiterRuns
import CodeOss.Tokens.LineTokensLaws
import CodeOss.Folding.IndentLimit
import CodeOss.Ui.IndexTreeRuns
import CodeOss.UserDataSync.ProfilesMerge
import CodeOss.Ui.RangeMap
import CodeOss.Base.LinkedCaches
import CodeOss.ViewModel.NormalizePosition
import CodeOss.ViewModel.LineBreakLaws
import CodeOss.Core.LineRangeSetLaws
import CodeOss.Core.PrefixSumLaws
