/-
# Reports

What a conversion could not carry over faithfully. None of it stops a conversion.
-/

import WorkflowGraph.Graph

namespace WorkflowGraph

/-- The kinds of findings. -/
inductive DiagnosticKind
  | unsupportedConstruct
  | danglingReference
  | droppedEdge
  deriving DecidableEq, Repr

/-- Every kind of finding. -/
def DiagnosticKind.all : List DiagnosticKind :=
  [.unsupportedConstruct, .danglingReference, .droppedEdge]

/-- One finding. -/
inductive Diagnostic
  /-- A node of the root was replaced by a placeholder. -/
  | unsupportedNode (node tag reason : String)
  /-- A node of a loop body was left out. -/
  | droppedBlock (iteration node tag reason : String)
  /-- An edge between levels was left out. -/
  | mixedEdge (edge source target : String)
  /-- An edge without one of its ends was left out. -/
  | danglingEdge (edge source target : String)
  /-- A reference to a node that is not in the graph was left out. -/
  | danglingReference (node slot missing : String)
  /-- An edge selects a class that its classifier does not declare. -/
  | branchOutOfRange (edge node : String) (index classes : Nat)
  /-- An edge leaves on a handle that no rule of the platform understands. -/
  | unrecognizedHandle (edge node handle : String)
  deriving DecidableEq, Repr

namespace Diagnostic

/-- The kind of a finding. -/
def kind : Diagnostic → DiagnosticKind
  | .unsupportedNode .. | .droppedBlock .. | .branchOutOfRange .. | .unrecognizedHandle .. =>
    .unsupportedConstruct
  | .danglingReference .. => .danglingReference
  | .mixedEdge .. | .danglingEdge .. => .droppedEdge

/-- An edge with its ends, as reports name it. -/
def edgeText (edge source target : String) : String :=
  "Edge '" ++ edge ++ "' (" ++ source ++ " -> " ++ target ++ ")"

/-- The finding in words. -/
def message : Diagnostic → String
  | .unsupportedNode node tag reason =>
    "Node '" ++ node ++ "' (" ++ tag ++ ") replaced by a placeholder: " ++ reason
  | .droppedBlock iteration node tag reason =>
    "Nested block '" ++ node ++ "' (" ++ tag ++ ") in iteration '" ++ iteration ++ "' dropped: "
      ++ reason
  | .mixedEdge edge source target =>
    edgeText edge source target ++ " crosses an iteration boundary and was dropped"
  | .danglingEdge edge source target =>
    edgeText edge source target
      ++ " has an endpoint that is not in the graph and was dropped"
  | .danglingReference node slot missing =>
    "'" ++ slot ++ "' of node '" ++ node ++ "' referenced missing node '" ++ missing
      ++ "' and was dropped"
  | .branchOutOfRange edge node index classes =>
    "Edge '" ++ edge ++ "' leaves '" ++ node ++ "' on branch " ++ Text.ofInt index ++ ", but only "
      ++ Text.ofInt classes ++ " class(es) are declared; kept as is"
  | .unrecognizedHandle edge node handle =>
    "Edge '" ++ edge ++ "' leaves '" ++ node ++ "' on unrecognized handle '" ++ handle
      ++ "'; kept as is"

end Diagnostic

/-- The findings of a conversion in the order in which they were made, the number of
nodes that were decoded, and the ids of the nodes that were replaced or left out. -/
structure Report where
  diagnostics : List Diagnostic
  converted : Nat
  placeholders : List String
  droppedBlocks : List String
  deriving Inhabited

namespace Report

/-- The report of nothing. -/
def empty : Report :=
  ⟨[], 0, [], []⟩

/-- One report after another. -/
def append (a b : Report) : Report :=
  ⟨a.diagnostics ++ b.diagnostics, a.converted + b.converted, a.placeholders ++ b.placeholders,
    a.droppedBlocks ++ b.droppedBlocks⟩

instance : Append Report := ⟨append⟩

/-- A report of findings only. -/
def ofDiagnostics (ds : List Diagnostic) : Report :=
  ⟨ds, 0, [], []⟩

/-- The findings of a kind. -/
def ofKind (r : Report) (kind : DiagnosticKind) : List Diagnostic :=
  r.diagnostics.filter fun d => d.kind == kind

/-- The number of findings of a kind. -/
def count (r : Report) (kind : DiagnosticKind) : Nat :=
  (r.ofKind kind).length

/-- Whether nothing was changed or left out. -/
def isClean (r : Report) : Bool :=
  r.diagnostics.isEmpty

/-- The report in words: two lines with numbers, and a line for each finding. -/
def text (r : Report) : String :=
  "Converted " ++ Text.ofInt r.converted ++ " node(s); " ++ Text.ofInt r.placeholders.length
    ++ " placeholder(s), " ++ Text.ofInt r.droppedBlocks.length ++ " dropped block(s)\n"
    ++ "Unsupported constructs: " ++ Text.ofInt (r.count .unsupportedConstruct)
    ++ ", dangling references: " ++ Text.ofInt (r.count .danglingReference)
    ++ ", dropped edges: " ++ Text.ofInt (r.count .droppedEdge) ++ "\n"
    ++ String.join (r.diagnostics.map fun d => "  - " ++ d.message ++ "\n")

end Report

end WorkflowGraph
