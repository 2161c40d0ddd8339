/-
# Workflow graphs

The platform-neutral form of a workflow: nodes joined by edges. A node of kind
`iteration` repeats a graph of its own for every item of a list, so graphs nest.
Each level of nesting has its own names: an edge joins nodes of one level, and
ids need only be unique there.
-/

import WorkflowGraph.Literal
import WorkflowGraph.VarType

namespace WorkflowGraph

/-- The kinds of nodes. -/
inductive NodeKind
  | start
  | finish
  | llm
  | code
  | condition
  | classifier
  | iteration
  deriving DecidableEq, Inhabited, Repr

namespace NodeKind

/-- Every kind. -/
def all : List NodeKind :=
  [.start, .finish, .llm, .code, .condition, .classifier, .iteration]

/-- The name shown to people. -/
def display : NodeKind → String
  | .start => "start"
  | .finish => "end"
  | .llm => "llm"
  | .code => "code"
  | .condition => "condition"
  | .classifier => "classifier"
  | .iteration => "iteration"

/-- Whether the edges that leave a node of this kind select a branch. -/
def isBranching : NodeKind → Bool
  | .condition | .classifier => true
  | _ => false

end NodeKind

/-- The handle by which an edge leaves a node. -/
inductive Handle
  /-- Flow without a condition. -/
  | default
  /-- The branch declared at a position. -/
  | case (index : Nat)
  /-- The branch taken when no declared one is. -/
  | fallthrough
  /-- A handle that no rule of its platform understands, kept as it was. -/
  | raw (spelling : String)
  deriving DecidableEq, Inhabited, Repr

namespace Handle

/-- Whether the handle selects a branch. -/
def isBranch : Handle → Bool
  | .case _ | .fallthrough => true
  | _ => false

/-- The handle as shown to people. -/
def display : Handle → String
  | .default => "default"
  | .case index => "case_" ++ Text.ofInt index
  | .fallthrough => "__default__"
  | .raw spelling => spelling

end Handle

/-- What an edge expresses. -/
inductive EdgeKind
  /-- One node follows another. -/
  | control
  /-- A node comes first in each round of an iteration. -/
  | iterationStart
  deriving DecidableEq, Inhabited, Repr

/-- A connection between two nodes. -/
structure Edge where
  id : String
  source : String
  sourceHandle : Handle
  target : String
  targetHandle : String
  kind : EdgeKind
  deriving DecidableEq, Inhabited, Repr

namespace Edge

/-- The handle on which edges arrive unless they say otherwise. -/
def defaultTargetHandle : String :=
  "target"

/-- An unconditional edge. -/
def plain (id source target : String) : Edge :=
  ⟨id, source, .default, target, defaultTargetHandle, .control⟩

/-- The edge as shown to people. -/
def display (e : Edge) : String :=
  e.source ++ ":" ++ e.sourceHandle.display ++ " -> " ++ e.target ++ ":" ++ e.targetHandle

end Edge

/-- The value that a node emits under a name, taken with a type. -/
structure Reference where
  node : String
  output : String
  type : VarType
  deriving DecidableEq, Inhabited, Repr

namespace Reference

/-- The reference as shown to people. -/
def display (r : Reference) : String :=
  "\x7b\x7b#" ++ r.node ++ "." ++ r.output ++ "#\x7d\x7d"

end Reference

/-- Where the value of an input comes from. -/
inductive InputValue
  | reference (r : Reference)
  | literal (l : Literal)
  deriving Inhabited

/-- A named value that a node consumes. -/
structure Input where
  name : String
  type : VarType
  value : InputValue
  deriving Inhabited

namespace Input

/-- An input taken from another node, with the type of the reference. -/
def ofReference (name : String) (r : Reference) : Input :=
  ⟨name, r.type, .reference r⟩

/-- An input with a constant value. -/
def ofLiteral (name : String) (type : VarType) (l : Literal) : Input :=
  ⟨name, type, .literal l⟩

/-- The reference that the input is taken from, if any. -/
def reference? (i : Input) : Option Reference :=
  match i.value with
  | .reference r => some r
  | .literal _ => none

end Input

/-- A named value that a node emits. -/
structure Output where
  name : String
  type : VarType
  deriving DecidableEq, Inhabited, Repr

/-- A place on the drawing board. -/
structure Position where
  x : Binary64
  y : Binary64
  deriving DecidableEq, Inhabited, Repr

/-- How a node is shown: carried along and never interpreted. -/
structure Presentation where
  position : Option Position
  description : Option String
  deriving DecidableEq, Inhabited, Repr

/-- The language model that a node calls. -/
structure Model where
  provider : Option String
  name : String
  temperature : Option Binary64
  maxTokens : Option UInt32
  deriving DecidableEq, Inhabited, Repr

/-- The settings of a node that calls a language model. -/
structure LlmConfig where
  model : Model
  systemPrompt : Option String
  prompt : String
  deriving DecidableEq, Inhabited, Repr

/-- The language of a piece of code. -/
inductive CodeLanguage
  | python3
  | javaScript
  | other (name : String)
  deriving DecidableEq, Inhabited, Repr

namespace CodeLanguage

/-- The language that a spelling names; an unknown one is kept as it is. -/
def parse (s : String) : CodeLanguage :=
  let word := Text.lower (Text.trim s)
  if ["python", "python3", "py"].contains word then .python3
  else if ["javascript", "js", "typescript", "ts", "nodejs"].contains word then .javaScript
  else .other s

end CodeLanguage

/-- The settings of a node that runs code. -/
structure CodeConfig where
  language : CodeLanguage
  code : String
  deriving DecidableEq, Inhabited, Repr

/-- How the conditions of one branch are joined. -/
inductive LogicalOperator
  | and
  | or
  deriving DecidableEq, Inhabited, Repr

/-- The comparison of a value with a constant. -/
structure Condition where
  left : Option Reference
  operator : String
  right : Literal
  deriving Inhabited

/-- A declared branch of a condition node. -/
structure BranchCase where
  id : String
  logicalOperator : LogicalOperator
  conditions : List Condition
  deriving Inhabited

/-- A declared class of a classifier node. -/
structure ClassLabel where
  id : String
  name : String
  deriving DecidableEq, Inhabited, Repr

/-- The settings of a classifier node. The position of a class is its index. -/
structure ClassifierConfig where
  model : Model
  query : Option Reference
  instruction : Option String
  classes : List ClassLabel
  deriving Inhabited

mutual
/-- One level of nodes, in document order, and the edges between them. -/
structure Graph where
  nodes : List Node
  edges : List Edge

/-- A step of a workflow. -/
structure Node where
  id : String
  kind : NodeKind
  title : String
  config : Config
  inputs : List Input
  outputs : List Output
  presentation : Presentation

/-- The settings of a node. The position of a branch case is its index. -/
inductive Config
  | start
  | finish (answer : Option String)
  | llm (c : LlmConfig)
  | code (c : CodeConfig)
  | condition (cases : List BranchCase)
  | classifier (c : ClassifierConfig)
  | iteration (loop : Loop)

/-- The settings of an iteration node: the list it walks over, the value that
each round contributes to its output, and the graph of one round. The entry edges
lead from the node to the nodes that come first in a round. -/
structure Loop where
  iterator : Option Reference
  output : Option Reference
  outputType : VarType
  parallel : Bool
  entryEdges : List Edge
  body : Graph
end

/-- The graph without nodes. -/
def Graph.empty : Graph :=
  ⟨[], []⟩

instance : Inhabited Graph := ⟨.empty⟩

instance : Inhabited Config := ⟨.start⟩

/-- An iteration without settings and with an empty body. -/
def Loop.default : Loop :=
  ⟨none, none, .string, false, [], .empty⟩

instance : Inhabited Loop := ⟨.default⟩

/-- The kind of node that the settings are meant for. -/
def Config.kind : Config → NodeKind
  | .start => .start
  | .finish _ => .finish
  | .llm _ => .llm
  | .code _ => .code
  | .condition _ => .condition
  | .classifier _ => .classifier
  | .iteration _ => .iteration

namespace Node

/-- A node with the kind of its settings and nothing else. -/
def ofConfig (id title : String) (config : Config) : Node :=
  ⟨id, config.kind, title, config, [], [], ⟨none, none⟩⟩

instance : Inhabited Node := ⟨ofConfig "" "" .start⟩

/-- The output of a name. -/
def output? (n : Node) (name : String) : Option Output :=
  n.outputs.find? fun o => o.name == name

/-- The settings of an iteration node. -/
def loop? (n : Node) : Option Loop :=
  match n.config with
  | .iteration loop => some loop
  | _ => none

/-- The references in the settings of a node, in order. -/
def configReferences (n : Node) : List Reference :=
  match n.config with
  | .condition cases => cases.flatMap fun c => c.conditions.filterMap Condition.left
  | .classifier c => c.query.toList
  | .iteration loop => loop.iterator.toList ++ loop.output.toList
  | _ => []

/-- The references that a node captures: those of its inputs, then those of its
settings. -/
def references (n : Node) : List Reference :=
  n.inputs.filterMap Input.reference? ++ n.configReferences

end Node

end WorkflowGraph
