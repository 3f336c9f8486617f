import EeEditor.Background.VlfSaves
import EeEditor.Background.WholeScan
import EeEditor.Editor.Pristine
import EeEditor.Editor.UndoState
import EeEditor.Engine.GcInvisible
import EeEditor.Engine.Immutable
import EeEditor.Engine.Intent
import EeEditor.Lsp.IncrementalSync
import EeEditor.Orchestrator.NewestCheckpoint
import EeEditor.Orchestrator.TurnSlices
import EeEditor.Orchestrator.VerifiedWrites
import EeEditor.Orchestrator.WriteConflicts
import EeEditor.Policy.Laws
import EeEditor.Rope.Expansion
import EeEditor.Rope.Pointwise
import EeEditor.Rope.Regions
import EeEditor.Rope.Replay
import EeEditor.Rope.RoundTrips
import EeEditor.Rope.Transformer
import EeEditor.Plugin.StoredStates
import EeEditor.Safeguards.Inspect
import EeEditor.Sequence.Pieces
import EeEditor.Sequence.Select
import EeEditor.Tree.CursorGoes
import EeEditor.Tree.FindCasei
import EeEditor.Tree.Slices
import EeEditor.Tree.RopeIndex
import EeEditor.Vlf.OverlayRuns
import EeEditor.Vlf.PageAggregates
import EeEditor.Vlf.PageCounts
import EeEditor.Vlf.SavePolicies
import EeEditor.Vlf.LimitRuns
import EeEditor.Vlf.SearchSteps
import EeEditor.Vlf.ChunkReads
import EeEditor.View.SelectionRuns
import EeEditor.View.Wrap
import EeEditor.Buffer.FrameCodec
import EeEditor.Orchestrator.BatchRuns
import EeEditor.Orchestrator.AppliedWrites
import EeEditor.Orchestrator.MemoryBooks
import EeEditor.Orchestrator.TaskOrder
import EeEditor.Orchestrator.SessionIsolation
import EeEditor.Frontend.Window
import EeEditor.Orchestrator.MemoryCompaction
import EeEditor.Orchestrator.RedactedText
import EeEditor.Orchestrator.RedactedBytes
import EeEditor.Orchestrator.MaskedValues
import EeEditor.Orchestrator.SequentialTools
import EeEditor.Sequence.Lines
import EeEditor.Lsp.DocumentPositions
import EeEditor.Rope.Splices
import EeEditor.Lsp.TextEdits
import EeEditor.EditOps.DisplayColumns
import EeEditor.EditOps.LineTransforms
import EeEditor.Sequence.Filling
import EeEditor.EditOps.Reflow
import EeEditor.Sequence.Columns
import EeEditor.EditOps.Alignment
import EeEditor.Rope.LineEdits
import EeEditor.EditOps.LineComments
import EeEditor.EditOps.BlockRegion
import EeEditor.Sequence.Replacing
import EeEditor.Sequence.Brackets
import EeEditor.EventContext.LineText
import EeEditor.EventContext.MatchingBracket
import EeEditor.EventContext.Substitution
import EeEditor.EditOps.Backspace
import EeEditor.Sequence.IndexRanges
import EeEditor.View.IndexSet
import EeEditor.Rpc.Transport
import EeEditor.Buffer.LineEnding
import EeEditor.Vlf.ByteCaches
import EeEditor.Safeguards.Targets
import EeEditor.EventContext.Joining
