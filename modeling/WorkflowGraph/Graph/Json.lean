/-
# Graphs as JSON

The JSON notation of graphs, and its reader. Records are objects with their
fields in declaration order. A value with alternatives is the name of the
alternative, as a string when nothing else belongs to it and as the only field of
an object otherwise.
-/

import WorkflowGraph.Graph
import WorkflowGraph.Json.Reader

namespace WorkflowGraph

open Json (Reader)
open Json.Reader (Variant)
open Json.Reader.Field (required optional)

/-- The object that names an alternative and holds its value. -/
def Json.tagged (name : String) (value : Json) : Json :=
  .obj [(name, value)]

namespace Literal

mutual
/-- The notation of a literal. -/
def toJson : Literal → Json
  | .null => .str "Null"
  | .bool b => .tagged "Bool" (.bool b)
  | .number x => .tagged "Number" (.ofFloat x)
  | .string s => .tagged "String" (.str s)
  | .array items => .tagged "Array" (.arr (itemsToJson items))
  | .object fields => .tagged "Object" (.arr (fieldsToJson fields))

/-- The notation of every item of a list. -/
def itemsToJson : List Literal → List Json
  | [] => []
  | l :: ls => l.toJson :: itemsToJson ls

/-- The notation of every field of a list: a pair of the name and the value. -/
def fieldsToJson : List (String × Literal) → List Json
  | [] => []
  | (k, l) :: fs => .arr [.str k, l.toJson] :: fieldsToJson fs
end

/-- Reads literals that nest at most the given number of levels. -/
def readWithin : Nat → Reader Literal
  | 0 => fun _ => .error .tooDeep
  | n + 1 => Reader.variants
    [.bare "Null" .null,
     .of "Bool" Reader.bool .bool,
     .of "Number" Reader.float .number,
     .of "String" Reader.text .string,
     .of "Array" (Reader.list (readWithin n)) .array,
     .of "Object" (Reader.list (Reader.pair Reader.text (readWithin n))) .object]

/-- Reads a literal. -/
def read : Reader Literal :=
  Reader.nested readWithin

end Literal

namespace VarType

/-- The name in JSON. -/
def tag : VarType → String
  | .string => "String"
  | .number => "Number"
  | .integer => "Integer"
  | .boolean => "Boolean"
  | .object => "Object"
  | .file => "File"
  | .arrayString => "ArrayString"
  | .arrayNumber => "ArrayNumber"
  | .arrayBoolean => "ArrayBoolean"
  | .arrayObject => "ArrayObject"
  | .arrayFile => "ArrayFile"
  | .array => "Array"
  | .any => "Any"

/-- Reads a variable type. -/
def read : Reader VarType :=
  Reader.variants (all.map fun t => .bare t.tag t)

end VarType

namespace NodeKind

/-- The name in JSON. -/
def tag : NodeKind → String
  | .start => "Start"
  | .finish => "End"
  | .llm => "Llm"
  | .code => "Code"
  | .condition => "Condition"
  | .classifier => "Classifier"
  | .iteration => "Iteration"

/-- Reads a node kind. -/
def read : Reader NodeKind :=
  Reader.variants (all.map fun k => .bare k.tag k)

end NodeKind

namespace Handle

/-- The notation of a handle. The alternatives have names of their own, so a raw
handle that is spelled like another one remains a raw handle. -/
def toJson : Handle → Json
  | .default => .str "default"
  | .case index => .tagged "case" (.nat index)
  | .fallthrough => .str "fallthrough"
  | .raw spelling => .tagged "raw" (.str spelling)

/-- Reads a handle. -/
def read : Reader Handle :=
  Reader.variants
    [.bare "default" .default,
     .of "case" Reader.word64 .case,
     .bare "fallthrough" .fallthrough,
     .of "raw" Reader.text .raw]

end Handle

namespace EdgeKind

/-- The name in JSON. -/
def tag : EdgeKind → String
  | .control => "Control"
  | .iterationStart => "IterationStart"

/-- Reads an edge kind. -/
def read : Reader EdgeKind :=
  Reader.variants ([EdgeKind.control, .iterationStart].map fun k => .bare k.tag k)

end EdgeKind

namespace Edge

/-- The notation of an edge. -/
def toJson (e : Edge) : Json :=
  .obj [("id", .str e.id), ("source", .str e.source), ("source_handle", e.sourceHandle.toJson),
    ("target", .str e.target), ("target_handle", .str e.targetHandle),
    ("kind", .str e.kind.tag)]

/-- Reads an edge. -/
def read : Reader Edge :=
  Reader.record "Edge" default
    [required "id" Reader.text fun v e => { e with id := v },
     required "source" Reader.text fun v e => { e with source := v },
     required "source_handle" Handle.read fun v e => { e with sourceHandle := v },
     required "target" Reader.text fun v e => { e with target := v },
     required "target_handle" Reader.text fun v e => { e with targetHandle := v },
     required "kind" EdgeKind.read fun v e => { e with kind := v }]

end Edge

namespace Reference

/-- The notation of a reference. -/
def toJson (r : Reference) : Json :=
  .obj [("node_id", .str r.node), ("output_name", .str r.output), ("var_type", .str r.type.tag)]

/-- Reads a reference. -/
def read : Reader Reference :=
  Reader.record "VariableReference" default
    [required "node_id" Reader.text fun v r => { r with node := v },
     required "output_name" Reader.text fun v r => { r with output := v },
     required "var_type" VarType.read fun v r => { r with type := v }]

end Reference

namespace InputValue

/-- The notation of the value of an input. -/
def toJson : InputValue → Json
  | .reference r => .tagged "Reference" r.toJson
  | .literal l => .tagged "Literal" l.toJson

/-- Reads the value of an input. -/
def read : Reader InputValue :=
  Reader.variants [.of "Reference" Reference.read .reference, .of "Literal" Literal.read .literal]

end InputValue

namespace Input

/-- The notation of an input. -/
def toJson (i : Input) : Json :=
  .obj [("name", .str i.name), ("var_type", .str i.type.tag), ("value", i.value.toJson)]

/-- Reads an input. -/
def read : Reader Input :=
  Reader.record "Input" default
    [required "name" Reader.text fun v i => { i with name := v },
     required "var_type" VarType.read fun v i => { i with type := v },
     required "value" InputValue.read fun v i => { i with value := v }]

end Input

namespace Output

/-- The notation of an output. -/
def toJson (o : Output) : Json :=
  .obj [("name", .str o.name), ("var_type", .str o.type.tag)]

/-- Reads an output. -/
def read : Reader Output :=
  Reader.record "Output" default
    [required "name" Reader.text fun v o => { o with name := v },
     required "var_type" VarType.read fun v o => { o with type := v }]

end Output

namespace Position

/-- The notation of a position. -/
def toJson (p : Position) : Json :=
  .obj [("x", .ofFloat p.x), ("y", .ofFloat p.y)]

/-- Reads a position. -/
def read : Reader Position :=
  Reader.record "Position" default
    [required "x" Reader.float fun v p => { p with x := v },
     required "y" Reader.float fun v p => { p with y := v }]

end Position

namespace Presentation

/-- The notation of a presentation. -/
def toJson (p : Presentation) : Json :=
  .obj [("position", .ofOption Position.toJson p.position),
    ("description", .ofText? p.description)]

/-- Reads a presentation. -/
def read : Reader Presentation :=
  Reader.record "NodeMeta" default
    [optional "position" Position.read fun v p => { p with position := v },
     optional "description" Reader.text fun v p => { p with description := v }]

end Presentation

namespace Model

/-- The notation of a model. -/
def toJson (m : Model) : Json :=
  .obj [("provider", .ofText? m.provider), ("name", .str m.name),
    ("temperature", .ofOption .ofFloat m.temperature),
    ("max_tokens", .ofOption (fun n => .nat n.toNat) m.maxTokens)]

/-- Reads a model. -/
def read : Reader Model :=
  Reader.record "ModelConfig" default
    [optional "provider" Reader.text fun v m => { m with provider := v },
     required "name" Reader.text fun v m => { m with name := v },
     optional "temperature" Reader.float fun v m => { m with temperature := v },
     optional "max_tokens" Reader.word32 fun v m => { m with maxTokens := v.map UInt32.ofNat }]

end Model

namespace LlmConfig

/-- The notation of the settings of a node that calls a language model. -/
def toJson (c : LlmConfig) : Json :=
  .obj [("model", c.model.toJson), ("system_prompt", .ofText? c.systemPrompt),
    ("prompt", .str c.prompt)]

/-- Reads the settings of a node that calls a language model. -/
def read : Reader LlmConfig :=
  Reader.record "LlmConfig" default
    [required "model" Model.read fun v c => { c with model := v },
     optional "system_prompt" Reader.text fun v c => { c with systemPrompt := v },
     required "prompt" Reader.text fun v c => { c with prompt := v }]

end LlmConfig

namespace CodeLanguage

/-- The notation of a language. -/
def toJson : CodeLanguage → Json
  | .python3 => .str "Python3"
  | .javaScript => .str "JavaScript"
  | .other name => .tagged "Other" (.str name)

/-- Reads a language. -/
def read : Reader CodeLanguage :=
  Reader.variants
    [.bare "Python3" .python3, .bare "JavaScript" .javaScript, .of "Other" Reader.text .other]

end CodeLanguage

namespace CodeConfig

/-- The notation of the settings of a node that runs code. -/
def toJson (c : CodeConfig) : Json :=
  .obj [("language", c.language.toJson), ("code", .str c.code)]

/-- Reads the settings of a node that runs code. -/
def read : Reader CodeConfig :=
  Reader.record "CodeConfig" default
    [required "language" CodeLanguage.read fun v c => { c with language := v },
     required "code" Reader.text fun v c => { c with code := v }]

end CodeConfig

namespace LogicalOperator

/-- The name in JSON. -/
def tag : LogicalOperator → String
  | .and => "And"
  | .or => "Or"

/-- Reads a logical operator. -/
def read : Reader LogicalOperator :=
  Reader.variants ([LogicalOperator.and, .or].map fun o => .bare o.tag o)

end LogicalOperator

namespace Condition

/-- The notation of a comparison. -/
def toJson (c : Condition) : Json :=
  .obj [("left", .ofOption Reference.toJson c.left), ("operator", .str c.operator),
    ("right", c.right.toJson)]

/-- Reads a comparison. -/
def read : Reader Condition :=
  Reader.record "Condition" default
    [optional "left" Reference.read fun v c => { c with left := v },
     required "operator" Reader.text fun v c => { c with operator := v },
     required "right" Literal.read fun v c => { c with right := v }]

end Condition

namespace BranchCase

/-- The notation of a branch case. -/
def toJson (c : BranchCase) : Json :=
  .obj [("id", .str c.id), ("logical_operator", .str c.logicalOperator.tag),
    ("conditions", .ofList Condition.toJson c.conditions)]

/-- Reads a branch case. -/
def read : Reader BranchCase :=
  Reader.record "BranchCase" default
    [required "id" Reader.text fun v c => { c with id := v },
     required "logical_operator" LogicalOperator.read fun v c => { c with logicalOperator := v },
     required "conditions" (Reader.list Condition.read) fun v c => { c with conditions := v }]

end BranchCase

namespace ClassLabel

/-- The notation of a class. -/
def toJson (c : ClassLabel) : Json :=
  .obj [("id", .str c.id), ("name", .str c.name)]

/-- Reads a class. -/
def read : Reader ClassLabel :=
  Reader.record "ClassLabel" default
    [required "id" Reader.text fun v c => { c with id := v },
     required "name" Reader.text fun v c => { c with name := v }]

end ClassLabel

namespace ClassifierConfig

/-- The notation of the settings of a classifier. -/
def toJson (c : ClassifierConfig) : Json :=
  .obj [("model", c.model.toJson), ("query", .ofOption Reference.toJson c.query),
    ("instruction", .ofText? c.instruction), ("classes", .ofList ClassLabel.toJson c.classes)]

/-- Reads the settings of a classifier. -/
def read : Reader ClassifierConfig :=
  Reader.record "ClassifierConfig" default
    [required "model" Model.read fun v c => { c with model := v },
     optional "query" Reference.read fun v c => { c with query := v },
     optional "instruction" Reader.text fun v c => { c with instruction := v },
     required "classes" (Reader.list ClassLabel.read) fun v c => { c with classes := v }]

end ClassifierConfig

mutual
/-- The notation of a graph. -/
def Graph.toJson : Graph → Json
  | ⟨nodes, edges⟩ => .obj [("nodes", .arr (Node.listToJson nodes)),
      ("edges", .ofList Edge.toJson edges)]

/-- The notation of every node of a list. -/
def Node.listToJson : List Node → List Json
  | [] => []
  | n :: ns => n.toJson :: Node.listToJson ns

/-- The notation of a node. -/
def Node.toJson : Node → Json
  | ⟨id, kind, title, config, inputs, outputs, presentation⟩ =>
    .obj [("id", .str id), ("node_type", .str kind.tag), ("title", .str title),
      ("config", config.toJson), ("inputs", .ofList Input.toJson inputs),
      ("outputs", .ofList Output.toJson outputs), ("meta", presentation.toJson)]

/-- The notation of the settings of a node. -/
def Config.toJson : Config → Json
  | .start => .tagged "Start" (.obj [])
  | .finish answer => .tagged "End" (.obj [("answer", .ofText? answer)])
  | .llm c => .tagged "Llm" c.toJson
  | .code c => .tagged "Code" c.toJson
  | .condition cases => .tagged "Condition" (.obj [("cases", .ofList BranchCase.toJson cases)])
  | .classifier c => .tagged "Classifier" c.toJson
  | .iteration loop => .tagged "Iteration" loop.toJson

/-- The notation of the settings of an iteration. -/
def Loop.toJson : Loop → Json
  | ⟨iterator, output, outputType, parallel, entryEdges, body⟩ =>
    .obj [("iterator", .ofOption Reference.toJson iterator),
      ("output", .ofOption Reference.toJson output), ("output_type", .str outputType.tag),
      ("parallel", .bool parallel), ("entry_edges", .ofList Edge.toJson entryEdges),
      ("body", body.toJson)]
end

/-- Reads the settings of an iteration, given how to read its body. -/
def Loop.reader (readBody : Reader Graph) : Reader Loop :=
  Reader.record "IterationConfig" default
    [optional "iterator" Reference.read fun v c => { c with iterator := v },
     optional "output" Reference.read fun v c => { c with output := v },
     required "output_type" VarType.read fun v c => { c with outputType := v },
     required "parallel" Reader.bool fun v c => { c with parallel := v },
     required "entry_edges" (Reader.list Edge.read) fun v c => { c with entryEdges := v },
     required "body" readBody fun v c => { c with body := v }]

/-- Reads the settings of a node, given how to read a body. -/
def Config.reader (readBody : Reader Graph) : Reader Config :=
  Reader.variants
    [.of "Start" (Reader.record "StartConfig" () []) fun _ => .start,
     .of "End" (Reader.record "EndConfig" none [optional "answer" Reader.text fun v _ => v])
       .finish,
     .of "Llm" LlmConfig.read .llm,
     .of "Code" CodeConfig.read .code,
     .of "Condition" (Reader.record "ConditionConfig" []
       [required "cases" (Reader.list BranchCase.read) fun v _ => v]) .condition,
     .of "Classifier" ClassifierConfig.read .classifier,
     .of "Iteration" (Loop.reader readBody) .iteration]

/-- Reads a node, given how to read a body. -/
def Node.reader (readBody : Reader Graph) : Reader Node :=
  Reader.record "Node" default
    [required "id" Reader.text fun v n => { n with id := v },
     required "node_type" NodeKind.read fun v n => { n with kind := v },
     required "title" Reader.text fun v n => { n with title := v },
     required "config" (Config.reader readBody) fun v n => { n with config := v },
     required "inputs" (Reader.list Input.read) fun v n => { n with inputs := v },
     required "outputs" (Reader.list Output.read) fun v n => { n with outputs := v },
     required "meta" Presentation.read fun v n => { n with presentation := v }]

/-- Reads a graph, given how to read a body. -/
def Graph.reader (readBody : Reader Graph) : Reader Graph :=
  Reader.record "Graph" default
    [required "nodes" (Reader.list (Node.reader readBody)) fun v g => { g with nodes := v },
     required "edges" (Reader.list Edge.read) fun v g => { g with edges := v }]

/-- Reads graphs that nest at most the given number of levels. -/
def Graph.readWithin : Nat → Reader Graph
  | 0 => fun _ => .error .tooDeep
  | n + 1 => Graph.reader (Graph.readWithin n)

/-- Reads a graph. -/
def Graph.read : Reader Graph :=
  Reader.nested Graph.readWithin

/-- Reads a node. -/
def Node.read : Reader Node :=
  Node.reader Graph.read

end WorkflowGraph
