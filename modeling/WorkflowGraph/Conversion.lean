/-
# Conversion

A document becomes a graph: its records are lifted level by level, its links are
sorted by level, references to missing nodes are left out, the levels are assembled,
and the graph is checked. Whatever could not be carried over is reported.
-/

import WorkflowGraph.Conversion.Assembly
import WorkflowGraph.Conversion.Harvest
import WorkflowGraph.Graph.Validate
import WorkflowGraph.Json.Parser
import WorkflowGraph.Platform.Document

namespace WorkflowGraph

/-- Why a document could not be converted. -/
inductive ConvertError
  | format (e : FormatError)
  | structural (e : StructuralError)
  /-- Loops contain one another in a circle. -/
  | circular
  deriving DecidableEq, Repr

/-- The reason in words. -/
def ConvertError.message : ConvertError → String
  | .format e => e.message
  | .structural e => e.message
  | .circular => "Iteration sections contain each other"

/-- A graph with the platform that its document comes from, and the report of its
conversion. -/
structure Conversion where
  source : Platform
  graph : Graph
  report : Report

namespace Conversion

/-- The findings for the links that are not kept: the mixed ones first. -/
def droppedEdges (part : EdgePartition) : List Diagnostic :=
  (part.mixed.map fun l => .mixedEdge l.effectiveId l.source l.target)
    ++ part.dangling.map fun l => .danglingEdge l.effectiveId l.source l.target

/-- The ids of the nodes on all levels. -/
def presentIds (levels : List (Level × List Node)) : List String :=
  levels.flatMap fun level => level.2.map Node.id

/-- The levels without dangling references. -/
def cleanLevels (levels : List (Level × List Node)) : List (Level × List Node) :=
  let present := presentIds levels
  levels.map fun level => (level.1, level.2.map (Dangling.cleanNode present))

/-- The findings for dangling references, level by level. -/
def danglingReferences (levels : List (Level × List Node)) : List Diagnostic :=
  let present := presentIds levels
  levels.flatMap fun level => level.2.flatMap (Dangling.nodeFindings present)

/-- The partition of the links of a lifted document. -/
def partition (p : Platform) (l : Lifted) : EdgePartition :=
  .ofLinks p l.placement l.harvest.links

/-- The graph of a lifted document and the report of its conversion, before the graph
is checked. -/
def assemble (p : Platform) (l : Lifted) : Graph × Report :=
  let part := partition p l
  let assembled := Assembly.ofLevel p part .root (LevelTable.ofLevels (cleanLevels l.levels))
  (assembled.value, l.harvest.report ++ Report.ofDiagnostics
    (droppedEdges part ++ danglingReferences l.levels ++ assembled.diagnostics))

/-- Converts a document with the decoders of a registry. -/
def ofDocument (g : Registry) (d : Document) : Except ConvertError Conversion :=
  match d.check with
  | .error e => .error (.format e)
  | .ok _ =>
    match Lifted.ofDocument? g d with
    | none => .error .circular
    | some lifted =>
      let (graph, report) := assemble g.platform lifted
      match graph.validate with
      | .error e => .error (.structural e)
      | .ok _ => .ok ⟨g.platform, graph, report⟩

/-- Converts the export of a platform. -/
def ofJson (g : Registry) (exported : Json) : Except ConvertError Conversion :=
  match g.platform.parseDocument exported with
  | .error e => .error (.format e)
  | .ok d => ofDocument g d

/-- The greatest number of containers around any part of an exported text. -/
def nestingLimit : Nat := 127

/-- Converts the export of a platform from JSON text. -/
def ofText (g : Registry) (s : String) : Except ConvertError Conversion :=
  match Json.parse? nestingLimit s with
  | none => .error (.format (.syntaxError g.platform.name))
  | some j => ofJson g j

end Conversion

end WorkflowGraph
