/-
# Questions about a graph

Looking up nodes and edges on one level of a graph, and visiting the nodes of all
levels.
-/

import WorkflowGraph.Graph

namespace WorkflowGraph.Graph

/-- The first node with an id. -/
def node? (g : Graph) (id : String) : Option Node :=
  g.nodes.find? fun n => n.id == id

/-- The first edge with an id. -/
def edge? (g : Graph) (id : String) : Option Edge :=
  g.edges.find? fun e => e.id == id

/-- Whether a node with an id lies on this level. -/
def contains (g : Graph) (id : String) : Bool :=
  g.nodes.any fun n => n.id == id

/-- The edges that leave a node. -/
def outgoing (g : Graph) (id : String) : List Edge :=
  g.edges.filter fun e => e.source == id

/-- The edges that enter a node. -/
def incoming (g : Graph) (id : String) : List Edge :=
  g.edges.filter fun e => e.target == id

/-- The nodes of a kind. -/
def nodesOfKind (g : Graph) (kind : NodeKind) : List Node :=
  g.nodes.filter fun n => n.kind == kind

mutual
/-- The nodes of all levels: each node is followed by those of its body. -/
def walk : Graph → List Node
  | ⟨nodes, _⟩ => walkNodes nodes

/-- The given nodes, each followed by those of its body. -/
def walkNodes : List Node → List Node
  | [] => []
  | ⟨id, kind, title, config, inputs, outputs, presentation⟩ :: ns =>
    ⟨id, kind, title, config, inputs, outputs, presentation⟩ :: walkBody config ++ walkNodes ns

/-- The nodes of the body that a node's settings hold. -/
def walkBody : Config → List Node
  | .iteration ⟨_, _, _, _, _, body⟩ => walk body
  | _ => []
end

/-- The number of nodes on all levels. -/
def nodeCount (g : Graph) : Nat :=
  g.walk.length

end WorkflowGraph.Graph
