/-
# Bailian documents

A Bailian flow keeps the bodies of its loops in a section of subflows under the
ids of the loops. A value is a constant, or a template `${node.output}` that takes
an output of another node.
-/

import WorkflowGraph.Platform.Loose
import WorkflowGraph.Record.Json

namespace WorkflowGraph.Bailian

open Json (Reader)
open Json.Reader.Field (required optional defaulted)

/-- Reads an edge. -/
def readLink : Reader Link :=
  Reader.record "BailianEdge" default
    [defaulted "id" Reader.text fun v l => { l with id := v },
     required "source" Reader.text fun v l => { l with source := v },
     (defaulted "source_handle" (Reader.option Reader.text) fun v l =>
       { l with sourceHandle := v }).orNamed "sourceHandle",
     required "target" Reader.text fun v l => { l with target := v },
     (defaulted "target_handle" (Reader.option Reader.text) fun v l =>
       { l with targetHandle := v }).orNamed "targetHandle"]

/-- A declared input or output. -/
structure Parameter where
  key : String
  type : Option String
  value : Json
  deriving Inhabited

/-- Reads a declared input or output. -/
def Parameter.read : Reader Parameter :=
  Reader.record "BailianParam" ⟨"", none, .null⟩
    [required "key" Reader.text fun v p => { p with key := v },
     defaulted "type" (Reader.option Reader.text) fun v p => { p with type := v },
     defaulted "value" Reader.any fun v p => { p with value := v }]

/-- A node. -/
structure NodeEntry where
  id : String
  type : String
  name : Option String
  description : Option String
  position : Option Json
  config : List (String × Json)
  inputs : List Parameter
  outputs : List Parameter
  deriving Inhabited

/-- Reads a node. -/
def NodeEntry.read : Reader NodeEntry :=
  Reader.record "BailianNode" ⟨"", "", none, none, none, [], [], []⟩
    [defaulted "id" Reader.text fun v e => { e with id := v },
     defaulted "type" Reader.text fun v e => { e with type := v },
     defaulted "name" (Reader.option Reader.text) fun v e => { e with name := v },
     defaulted "description" (Reader.option Reader.text) fun v e => { e with description := v },
     defaulted "position" (Reader.option Reader.any) fun v e => { e with position := v },
     defaulted "config" (Reader.fields Reader.any) fun v e => { e with config := v },
     defaulted "inputs" (Reader.list Parameter.read) fun v e => { e with inputs := v },
     defaulted "outputs" (Reader.list Parameter.read) fun v e => { e with outputs := v }]

/-- The nodes and edges of one loop body. -/
structure Subflow where
  nodes : List NodeEntry
  links : List Link
  deriving Inhabited

/-- Reads a loop body. -/
def Subflow.read : Reader Subflow :=
  Reader.record "BailianSubflow" ⟨[], []⟩
    [defaulted "nodes" (Reader.list NodeEntry.read) fun v s => { s with nodes := v },
     defaulted "edges" (Reader.list readLink) fun v s => { s with links := v }]

/-- A whole flow. -/
structure Flow where
  nodes : List NodeEntry
  links : List Link
  subflows : Table Subflow
  deriving Inhabited

/-- Reads a flow. -/
def Flow.read : Reader Flow :=
  Reader.record "BailianFlow" ⟨[], [], ∅⟩
    [required "nodes" (Reader.list NodeEntry.read) fun v f => { f with nodes := v },
     defaulted "edges" (Reader.list readLink) fun v f => { f with links := v },
     defaulted "subflows" (Reader.table Subflow.read) fun v f => { f with subflows := v }]

/-- The value of an input. -/
def value (j : Json) : RecordValue :=
  match j.str?.bind Loose.template? with
  | some p => .pointer p
  | none => .literal j

/-- The parameter that holds the pointer of a template, or null. -/
def template (j : Option Json) : Json :=
  Loose.pointer ((j.bind Json.str?).bind Loose.template?)

/-- The parameter that describes the model of a node; the provider is always the
same. -/
def model (config : List (String × Json)) : Json :=
  Loose.model (some "dashscope") (Loose.text? (Fields.get? "modelId" config))
    (Loose.number? (Fields.get? "temperature" config))
    (Loose.number? (Fields.get? "maxTokens" config))

/-- The id of an entry, or its position when it has none. -/
def idOrIndex (index : Nat) (j : Json) : Json :=
  .str ((Loose.text? (j.get? "id")).getD (Text.ofInt index))

/-- The parameter for the class at a position: a plain name, or an object. -/
def classLabel (index : Nat) (j : Json) : Json :=
  match j with
  | .str name => .object [("id", .str (Text.ofInt index)), ("name", .str name)]
  | j => .object [("id", idOrIndex index j), ("name", .str (Loose.text (j.get? "name")))]

/-- The parameter for one comparison. -/
def condition (j : Json) : Json :=
  .object [("left", template (j.get? "left")), ("operator", .str (Loose.text (j.get? "operator"))),
    ("right", Loose.orNull (j.get? "right"))]

/-- The parameter for the branch at a position. -/
def branch (index : Nat) (j : Json) : Json :=
  .object [("id", idOrIndex index j),
    ("logical_operator", .str ((Loose.text? (j.get? "logic")).getD "and")),
    ("conditions", .arr ((Loose.items (j.get? "conditions")).map condition))]

/-- Adds to a record what the settings of a node say for its tag. -/
def withSettings (config : List (String × Json)) (r : Record) : Record :=
  let get (key : String) : Option Json := Fields.get? key config
  let text (key : String) : Json := .ofText? (Loose.text? (get key))
  match r.tag with
  | "End" => r.withParams [("answer", text "template")]
  | "LLM" =>
    r.withParams [("model", model config), ("system_prompt", text "systemPrompt"),
      ("prompt", .str (Loose.text (get "prompt")))]
  | "Script" =>
    r.withParams [("language", text "scriptType"), ("code", .str (Loose.text (get "script")))]
  | "Judge" => r.withParams [("cases", .arr ((Loose.items (get "branches")).mapIdx branch))]
  | "Classifier" =>
    r.withParams [("model", model config), ("query", template (get "query")),
      ("instruction", text "instruction"),
      ("classes", .arr ((Loose.items (get "intentions")).mapIdx classLabel))]
  | "Iteration" =>
    r.withParams [("iterator", template (get "iterator")), ("output", template (get "result")),
      ("output_type", text "resultType"), ("parallel", .bool (Loose.flag (get "parallel")))]
  | _ => r

/-- The record of a node. -/
def NodeEntry.toRecord (e : NodeEntry) : Record :=
  withSettings e.config
    { Record.bare e.id e.type with
      title := e.name
      presentation := Loose.presentation e.position e.description
      inputs := e.inputs.map fun p => ⟨p.key, p.type, value p.value⟩
      outputs := e.outputs.map fun p => ⟨p.key, p.type⟩ }

/-- The body that a subflow describes. -/
def Subflow.toBlocks (s : Subflow) : Blocks :=
  ⟨s.nodes.map NodeEntry.toRecord, s.links⟩

/-- The document of a flow. -/
def Flow.toDocument (f : Flow) : Document :=
  ⟨f.nodes.map NodeEntry.toRecord, f.links, f.subflows.map Subflow.toBlocks⟩

/-- The document of an exported flow. -/
def parse (exported : Json) : Except FormatError Document :=
  if (exported.get? "nodes").isNone then .error (.missingField "nodes")
  else match Flow.read exported with
    | .ok flow => .ok flow.toDocument
    | .error e => .error (.malformed Platform.bailian.name e.message)

end WorkflowGraph.Bailian
