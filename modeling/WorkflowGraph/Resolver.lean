/-
# Resolving pointers

Platforms disagree on the names of outputs, and inside a loop they let nodes name
a loop-start node where they mean the loop. A resolver holds, for one document,
the outputs that are exposed under another name, node by node, and the ids that
stand for another node. It is filled before any pointer is resolved; of two entries
for the same output or id, the later one counts.
-/

import WorkflowGraph.Record

namespace WorkflowGraph

/-- The new names of outputs by node and declared name, and the nodes by the ids that
stand for them. -/
structure Resolver where
  outputNames : Table (Table String)
  nodeAliases : Table String
  deriving Inhabited

namespace Resolver

/-- The resolver that changes nothing. -/
def empty : Resolver :=
  ⟨∅, ∅⟩

/-- The new names of the outputs of a node. -/
def namesOf (r : Resolver) (node : String) : Table String :=
  (Table.get? node r.outputNames).getD ∅

/-- Exposes an output of a node under another name. -/
def renameOutput (r : Resolver) (node declared effective : String) : Resolver :=
  let names := Table.insert declared effective (r.namesOf node)
  { r with outputNames := Table.insert node names r.outputNames }

/-- Lets an id stand for a node. -/
def aliasNode (r : Resolver) (standIn node : String) : Resolver :=
  { r with nodeAliases := Table.insert standIn node r.nodeAliases }

/-- The name under which an output is exposed. -/
def outputName (r : Resolver) (node name : String) : String :=
  (Table.get? name (r.namesOf node)).getD name

/-- The node that an id stands for. Aliases are followed for one step. -/
def nodeId (r : Resolver) (node : String) : String :=
  (Table.get? node r.nodeAliases).getD node

/-- A new name is found for its own output; all other outputs keep theirs. -/
theorem outputName_renameOutput (r : Resolver) (node declared effective other name : String) :
    (r.renameOutput node declared effective).outputName other name =
      if node = other ∧ declared = name then effective else r.outputName other name := by
  by_cases here : node = other
  · subst here
    by_cases same : declared = name <;>
      simp [renameOutput, outputName, namesOf, Table.get?_insert, same]
  · simp [renameOutput, outputName, namesOf, Table.get?_insert, here]

/-- An alias is found under its own id; all other ids keep their meaning. -/
theorem nodeId_aliasNode (r : Resolver) (standIn node other : String) :
    (r.aliasNode standIn node).nodeId other =
      if standIn = other then node else r.nodeId other := by
  by_cases same : standIn = other <;> simp [aliasNode, nodeId, Table.get?_insert, same]

/-- The reference that a pointer means: the node is resolved first, and the output
is then looked up under the resolved node. -/
def resolve (r : Resolver) (node output : String) (type : VarType) : Reference :=
  ⟨r.nodeId node, r.outputName (r.nodeId node) output, type⟩

/-- Whether the resolver has no entries. -/
def isEmpty (r : Resolver) : Bool :=
  r.outputNames.isEmpty && r.nodeAliases.isEmpty

/-- One entry of a resolver. -/
inductive Entry
  | renamed (node declared effective : String)
  | aliased (standIn node : String)
  deriving DecidableEq, Repr

/-- Adds an entry. -/
def add (r : Resolver) : Entry → Resolver
  | .renamed node declared effective => r.renameOutput node declared effective
  | .aliased standIn node => r.aliasNode standIn node

/-- The resolver with the given entries, added in order. -/
def ofEntries (entries : List Entry) : Resolver :=
  entries.foldl add empty

end Resolver

end WorkflowGraph
