/-
# Assembling a graph

The lifted levels are put together again: every iteration node receives the level of
its id as its body. Before that, references to nodes that lie on no level are left
out. A level is taken out of the table of levels when it is put into a body, so no
node is used twice even if ids are repeated.
-/

import WorkflowGraph.Conversion.Report
import WorkflowGraph.EdgePartition
import WorkflowGraph.Handle.Spelling

namespace WorkflowGraph

namespace Node

/-- Puts a body and entry edges into an iteration node; nothing comes back for any
other node. -/
def reattach? (n : Node) (body : Graph) (entryEdges : List Edge) : Option Node :=
  match n.config with
  | .iteration loop =>
    some { n with config := .iteration { loop with body := body, entryEdges := entryEdges } }
  | _ => none

end Node

/-! Leaving out references to nodes that are not among the present ones. -/
namespace Dangling

variable (present : List String)

/-- Whether a reference names a node that is not present. -/
def isDangling (r : Reference) : Bool :=
  !present.contains r.node

/-- The finding for a reference that is left out, if it is. -/
def finding? (node slot : String) (r : Option Reference) : Option Diagnostic :=
  (r.filter (isDangling present)).map fun r => .danglingReference node slot r.node

/-- The reference, unless it is left out. -/
def kept (r : Option Reference) : Option Reference :=
  r.filter fun r => !isDangling present r

/-- Whether an input is kept. -/
def keepsInput (i : Input) : Bool :=
  match i.reference? with
  | some r => !isDangling present r
  | none => true

/-- A comparison without a dangling operand. -/
def cleanCondition (c : Condition) : Condition :=
  { c with left := kept present c.left }

/-- A branch without dangling operands. -/
def cleanCase (c : BranchCase) : BranchCase :=
  { c with conditions := c.conditions.map (cleanCondition present) }

/-- The settings of a node without dangling references. -/
def cleanConfig : Config → Config
  | .condition cases => .condition (cases.map (cleanCase present))
  | .classifier c => .classifier { c with query := kept present c.query }
  | .iteration loop =>
    .iteration { loop with
      iterator := kept present loop.iterator
      output := kept present loop.output }
  | config => config

/-- The findings for the references in the settings of a node. The operands of a branch
are reported under its id. -/
def configFindings (node : String) : Config → List Diagnostic
  | .condition cases =>
    cases.flatMap fun c => c.conditions.filterMap fun k => finding? present node c.id k.left
  | .classifier c => (finding? present node "query" c.query).toList
  | .iteration loop =>
    (finding? present node "iterator" loop.iterator).toList
      ++ (finding? present node "output" loop.output).toList
  | _ => []

/-- A node without dangling references. -/
def cleanNode (n : Node) : Node :=
  { n with
    inputs := n.inputs.filter (keepsInput present)
    config := cleanConfig present n.config }

/-- The findings for a node: its inputs first, then its settings. -/
def nodeFindings (n : Node) : List Diagnostic :=
  n.inputs.filterMap (fun i => finding? present n.id i.name i.reference?)
    ++ configFindings present n.id n.config

end Dangling

/-- The lifted levels, each level once. -/
abbrev LevelTable := List (Level × List Node)

namespace LevelTable

/-- Stores the nodes of a level, in place of any earlier ones. -/
def put (t : LevelTable) (level : Level) (nodes : List Node) : LevelTable :=
  t.filter (fun entry => entry.1 != level) ++ [(level, nodes)]

/-- The table of lifted levels; a repeated level keeps its last nodes. -/
def ofLevels (levels : List (Level × List Node)) : LevelTable :=
  levels.foldl (fun t entry => put t entry.1 entry.2) []

/-- The nodes of a level and the table without that level. -/
def take? (t : LevelTable) (level : Level) : Option (List Node × LevelTable) :=
  (t.lookup level).map fun nodes => (nodes, t.filter fun entry => entry.1 != level)

end LevelTable

/-- A graph that was assembled, the findings made on the way, and the levels that are
left. -/
structure Assembled (α : Type) where
  value : α
  diagnostics : List Diagnostic
  rest : LevelTable

namespace Assembly

variable (p : Platform) (part : EdgePartition)

/-- The last node with an id. -/
def lastNode? (nodes : List Node) (id : String) : Option Node :=
  nodes.reverse.find? fun n => n.id == id

/-- The findings for an edge that is kept. -/
def edgeFindings (e : Edge) (source : Node) : List Diagnostic :=
  match e.sourceHandle, e.sourceHandle.classesExceeded? source with
  | .raw handle, _ => [.unrecognizedHandle e.id e.source handle]
  | .case index, some classes => [.branchOutOfRange e.id e.source index classes]
  | _, _ => []

/-- The links of a level with the nodes that they leave. -/
def sourced (level : Level) (nodes : List Node) : List (Link × Node) :=
  (part.onLevel level).filterMap fun l => (lastNode? nodes l.source).map fun n => (l, n)

/-- The edges of a level. -/
def edges (level : Level) (nodes : List Node) : List Edge :=
  (sourced part level nodes).map fun entry => entry.1.toEdge p entry.2

/-- The findings for the edges of a level. -/
def levelFindings (level : Level) (nodes : List Node) : List Diagnostic :=
  (sourced part level nodes).flatMap fun entry =>
    edgeFindings (entry.1.toEdge p entry.2) entry.2

/-- Gives the nodes of a list their bodies, which `inner` assembles. -/
def attachBodies (inner : Level → LevelTable → Assembled Graph) :
    List Node → LevelTable → Assembled (List Node)
  | [], t => ⟨[], [], t⟩
  | n :: ns, t =>
    if n.kind = .iteration then
      let body := inner (.body n.id) t
      let rest := attachBodies inner ns body.rest
      ⟨(n.reattach? body.value (part.entryEdges n.id)).getD n :: rest.value,
        body.diagnostics ++ rest.diagnostics, rest.rest⟩
    else
      let rest := attachBodies inner ns t
      ⟨n :: rest.value, rest.diagnostics, rest.rest⟩

/-- Assembles a level that encloses at most the given number of levels. A level that
is not in the table is the empty graph. -/
def within : Nat → Level → LevelTable → Assembled Graph
  | 0, _, t => ⟨.empty, [], t⟩
  | n + 1, level, t =>
    match t.take? level with
    | none => ⟨.empty, [], t⟩
    | some (nodes, rest) =>
      let attached := attachBodies part (within n) nodes rest
      ⟨⟨attached.value, edges p part level attached.value⟩,
        attached.diagnostics ++ levelFindings p part level attached.value, attached.rest⟩

/-- Assembles a level. Every level that is put into a body leaves the table, so levels
never nest deeper than there are levels in the table. -/
def ofLevel (level : Level) (t : LevelTable) : Assembled Graph :=
  within p part t.length level t

end Assembly

end WorkflowGraph
