/-
# Well-formed graphs

The check that a graph keeps the rules of its levels. On each level the ids of
the nodes differ, every edge is a control edge between nodes of the level, every
node has the settings of its kind and outputs with different names, and the entry
edges of an iteration lead from the iteration into its body. The first violation
is reported: ids before edges, edges before nodes, and a node before its body.
-/

import WorkflowGraph.Graph.Query

namespace WorkflowGraph

/-- A rule that a graph breaks. -/
inductive StructuralError
  | duplicateNodeId (id : String)
  | edgeEndpointMissing (edge node : String)
  | configMismatch (node : String) (kind configKind : NodeKind)
  | duplicateOutput (node output : String)
  | invalidEntryEdge (iteration edge : String)
  | misplacedEntryEdge (edge : String)
  deriving DecidableEq, Repr

/-- The violation in words. -/
def StructuralError.message : StructuralError → String
  | .duplicateNodeId id => "Two nodes on the same graph level share the id '" ++ id ++ "'"
  | .edgeEndpointMissing edge node =>
    "Edge '" ++ edge ++ "' references node '" ++ node
      ++ "', which is not on the same graph level"
  | .configMismatch node kind configKind =>
    "Node '" ++ node ++ "' is typed " ++ kind.display ++ " but carries a "
      ++ configKind.display ++ " config"
  | .duplicateOutput node output =>
    "Node '" ++ node ++ "' declares the output '" ++ output ++ "' more than once"
  | .invalidEntryEdge iteration edge =>
    "Entry edge '" ++ edge ++ "' of iteration '" ++ iteration
      ++ "' does not start at the iteration or end inside its body"
  | .misplacedEntryEdge edge =>
    "Loop-entry edge '" ++ edge ++ "' appears in a graph level's edge list"

namespace Graph

/-- The first text of a list that also stands before its place, among the texts
already `seen` or earlier in the list. -/
def firstRepeated? (seen : List String) : List String → Option String
  | [] => none
  | s :: rest => if seen.contains s then some s else firstRepeated? (s :: seen) rest

/-- The violation of an edge on a level with the given ids. -/
def edgeError? (ids : List String) (e : Edge) : Option StructuralError :=
  if e.kind ≠ .control then some (.misplacedEntryEdge e.id)
  else if !ids.contains e.source then some (.edgeEndpointMissing e.id e.source)
  else if !ids.contains e.target then some (.edgeEndpointMissing e.id e.target)
  else none

/-- Whether an edge leads from an iteration into its body. -/
def isEntryOf (iteration : String) (body : Graph) (e : Edge) : Bool :=
  e.kind == .iterationStart && e.source == iteration && body.contains e.target

/-- The violation of a node that does not concern the graph of its body. -/
def nodeError? (n : Node) : Option StructuralError :=
  if n.config.kind ≠ n.kind then some (.configMismatch n.id n.kind n.config.kind)
  else match firstRepeated? [] (n.outputs.map Output.name) with
    | some name => some (.duplicateOutput n.id name)
    | none =>
      match n.loop? with
      | none => none
      | some loop =>
        (loop.entryEdges.find? fun e => !isEntryOf n.id loop.body e).map fun e =>
          .invalidEntryEdge n.id e.id

/-- The violation of a level that concerns neither its nodes one by one nor their
bodies. -/
def levelError? (nodes : List Node) (edges : List Edge) : Option StructuralError :=
  let ids := nodes.map Node.id
  match firstRepeated? [] ids with
  | some id => some (.duplicateNodeId id)
  | none => edges.findSome? (edgeError? ids)

mutual
/-- Checks a graph and the bodies inside it. -/
def validate : Graph → Except StructuralError Unit
  | ⟨nodes, edges⟩ =>
    match levelError? nodes edges with
    | some e => .error e
    | none => validateNodes nodes

/-- Checks the nodes of a level one after the other. -/
def validateNodes : List Node → Except StructuralError Unit
  | [] => .ok ()
  | ⟨id, kind, title, config, inputs, outputs, presentation⟩ :: ns =>
    match nodeError? ⟨id, kind, title, config, inputs, outputs, presentation⟩ with
    | some e => .error e
    | none =>
      match validateBody config with
      | .error e => .error e
      | .ok _ => validateNodes ns

/-- Checks the body that a node's settings hold. -/
def validateBody : Config → Except StructuralError Unit
  | .iteration ⟨_, _, _, _, _, body⟩ => validate body
  | _ => .ok ()
end

end Graph

end WorkflowGraph
