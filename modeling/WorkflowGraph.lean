import WorkflowGraph.CommandLine
import WorkflowGraph.FileStore.Directory
import WorkflowGraph.Main
import WorkflowGraph.Proofs.EdgeFates
import WorkflowGraph.Proofs.RepeatedLoops
import WorkflowGraph.Proofs.HandleSpelling
import WorkflowGraph.Proofs.Violations
import WorkflowGraph.Proofs.RepeatedIds
import WorkflowGraph.Proofs.References
import WorkflowGraph.Proofs.WrittenHandles
import WorkflowGraph.Proofs.AdapterParams
import WorkflowGraph.Proofs.RemovedDecoder
import WorkflowGraph.Proofs.CapturedPointers
import WorkflowGraph.Proofs.Truncation
import WorkflowGraph.Proofs.StorageLayouts
import WorkflowGraph.Proofs.RecordOrder
import WorkflowGraph.Proofs.JsonRoundTrip
import WorkflowGraph.Proofs.ReportedRecords
import WorkflowGraph.Proofs.DroppedLinks
import WorkflowGraph.Proofs.EndInputs
import WorkflowGraph.Proofs.StartNames
import WorkflowGraph.Proofs.MergedOutputs
import WorkflowGraph.Proofs.LostInputs
import WorkflowGraph.Proofs.BranchPositions
import WorkflowGraph.Proofs.WritableGraphs
import WorkflowGraph.Proofs.CarriedBlocks
import WorkflowGraph.Proofs.MappedTags
import WorkflowGraph.Proofs.ListedLevels
import WorkflowGraph.Proofs.GroupedNodes
import WorkflowGraph.Proofs.DeclaredIds
import WorkflowGraph.Proofs.Templates
import WorkflowGraph.Proofs.BranchFindings
import WorkflowGraph.Proofs.CountedNodes
import WorkflowGraph.Proofs.TakenLevels
