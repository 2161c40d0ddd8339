/-
# Dify documents

A Dify export lists all nodes of all levels in one flat list. What a node does is
told by the field `type` of its data. A node inside a loop names the loop as its
parent; such nodes are moved into the section of their loop. All edges, those
inside loops included, stay in one list.
-/

import WorkflowGraph.Platform.Loose
import WorkflowGraph.Record.Json

namespace WorkflowGraph.Dify

open Json (Reader)
open Json.Reader.Field (required optional defaulted)

/-- A node of the flat list. -/
structure NodeEntry where
  id : String
  parentId : Option String
  position : Option Json
  data : List (String × Json)
  deriving Inhabited

/-- Reads a node. -/
def NodeEntry.read : Reader NodeEntry :=
  Reader.record "DifyNode" ⟨"", none, none, []⟩
    [defaulted "id" Reader.text fun v e => { e with id := v },
     (defaulted "parent_id" (Reader.option Reader.text) fun v e =>
       { e with parentId := v }).orNamed "parentId",
     defaulted "position" (Reader.option Reader.any) fun v e => { e with position := v },
     defaulted "data" (Reader.fields Reader.any) fun v e => { e with data := v }]

/-- Reads an edge. -/
def readLink : Reader Link :=
  Reader.record "DifyEdge" default
    [defaulted "id" Reader.text fun v l => { l with id := v },
     required "source" Reader.text fun v l => { l with source := v },
     (defaulted "source_handle" (Reader.option Reader.text) fun v l =>
       { l with sourceHandle := v }).orNamed "sourceHandle",
     required "target" Reader.text fun v l => { l with target := v },
     (defaulted "target_handle" (Reader.option Reader.text) fun v l =>
       { l with targetHandle := v }).orNamed "targetHandle"]

/-- The lists of a document. -/
structure Canvas where
  nodes : List NodeEntry
  links : List Link
  deriving Inhabited

/-- Reads the lists of a document. -/
def Canvas.read : Reader Canvas :=
  Reader.record "DifyGraph" ⟨[], []⟩
    [required "nodes" (Reader.list NodeEntry.read) fun v c => { c with nodes := v },
     defaulted "edges" (Reader.list readLink) fun v c => { c with links := v }]

/-- A list that begins with the id of a node and the name of an output; what may
follow is a path into the value, which is ignored. -/
def selector? : Option Json → Option Pointer
  | some (.arr (.str node :: .str output :: _)) => some ⟨node, output⟩
  | _ => none

/-- The inputs that a list of variables declares: each is taken from another node
if it has a selector, and has a constant value otherwise. -/
def selectorInput? (j : Json) : Option RecordInput :=
  (Loose.text? (j.get? "variable")).map fun name =>
    ⟨name, Loose.text? (j.get? "value_type"),
      match selector? (j.get? "value_selector") with
      | some p => .pointer p
      | none => .literal (Loose.orNull (j.get? "value"))⟩

/-- The parameter that describes the model of a node. -/
def model (j : Option Json) : Json :=
  let settings := Loose.field? j "completion_params"
  Loose.model (Loose.text? (Loose.field? j "provider")) (Loose.text? (Loose.field? j "name"))
    (Loose.number? (Loose.field? settings "temperature"))
    (Loose.number? (Loose.field? settings "max_tokens"))

/-- Whether a message is the system prompt. -/
def isSystemMessage (j : Json) : Bool :=
  match j.get? "role" with
  | some (.str role) => role == "system"
  | _ => false

/-- The text of a message. -/
def messageText (j : Json) : String :=
  Loose.text (j.get? "text")

/-- The system prompt and the prompt of a template. A chat template lists messages,
of which the last system message counts and all others are joined; a template for
plain completion is one text. -/
def prompts : Option Json → Option String × String
  | some (.arr messages) =>
    (((messages.filter isSystemMessage).getLast?).map messageText,
     "\n".intercalate ((messages.filter fun m => !isSystemMessage m).map messageText))
  | some j => (none, messageText j)
  | none => (none, "")

/-- The parameter for one comparison. -/
def condition (j : Json) : Json :=
  .object [("left", Loose.pointer (selector? (j.get? "variable_selector"))),
    ("operator", .str (Loose.text (j.get? "comparison_operator"))),
    ("right", Loose.orNull (j.get? "value"))]

/-- The parameter for one branch. -/
def branch (id : String) (logic : Option Json) (conditions : Option Json) : Json :=
  .object [("id", .str id), ("logical_operator", .str ((Loose.text? logic).getD "and")),
    ("conditions", .arr ((Loose.items conditions).map condition))]

/-- The handle of the branch that is taken when the only group of conditions of a
node holds. -/
def trueHandle : String := "true"

/-- The parameter for the branches of a node. Older exports put a single group of
conditions on the node itself, which is one branch with the id `true`. -/
def branches (data : List (String × Json)) : Json :=
  match Fields.get? "cases" data with
  | some (.arr cases) =>
    .arr (cases.map fun c =>
      branch (Loose.text (c.get? "case_id")) (c.get? "logical_operator") (c.get? "conditions"))
  | _ =>
    .arr [branch trueHandle (Fields.get? "logical_operator" data)
      (Fields.get? "conditions" data)]

/-- The parameter for one class. -/
def classLabel (j : Json) : Json :=
  .object [("id", .ofText? (Loose.text? (j.get? "id"))),
    ("name", .ofText? (Loose.text? (j.get? "name")))]

/-- The output that a variable of a start node declares. -/
def variableOutput? (j : Json) : Option RecordOutput :=
  (Loose.text? (j.get? "variable")).map fun name => ⟨name, (j.get? "type").bind Json.str?⟩

/-- The outputs that a code node declares, by name. -/
def declaredOutputs : Option Json → List RecordOutput
  | some (.obj outputs) =>
    outputs.map fun entry => ⟨entry.1, (entry.2.get? "type").bind Json.str?⟩
  | _ => []

/-- Adds to a record what the data of a node says for its tag. -/
def withSettings (data : List (String × Json)) (r : Record) : Record :=
  let get (key : String) : Option Json := Fields.get? key data
  let text (key : String) : Json := .ofText? (Loose.text? (get key))
  let pointer (key : String) : Json := Loose.pointer (selector? (get key))
  match r.tag with
  | "start" => { r with outputs := (Loose.items (get "variables")).filterMap variableOutput? }
  | "end" => { r with inputs := (Loose.items (get "outputs")).filterMap selectorInput? }
  | "answer" => r.withParams [("answer", text "answer")]
  | "llm" =>
    let (system, prompt) := prompts (get "prompt_template")
    (r.withParams [("model", model (get "model")), ("system_prompt", .ofText? system),
      ("prompt", .str prompt)]).withOutput "text" (some "string")
  | "code" =>
    { r.withParams [("language", text "code_language"), ("code", text "code")] with
      inputs := (Loose.items (get "variables")).filterMap selectorInput?
      outputs := declaredOutputs (get "outputs") }
  | "if-else" => r.withParams [("cases", branches data)]
  | "question-classifier" =>
    (r.withParams [("model", model (get "model")),
      ("query", pointer "query_variable_selector"), ("instruction", text "instruction"),
      ("classes", .arr ((Loose.items (get "classes")).map classLabel))]).withOutput
      "class_name" (some "string")
  | "iteration" =>
    (r.withParams [("iterator", pointer "iterator_selector"),
      ("output", pointer "output_selector"), ("output_type", text "output_type"),
      ("parallel", .bool (Loose.flag (get "is_parallel"))),
      ("start_node_id", text "start_node_id")]).withOutput
      "output" (Loose.text? (get "output_type"))
  | _ => r

namespace NodeEntry

/-- The record of a node. -/
def toRecord (e : NodeEntry) : Record :=
  let get (key : String) : Option Json := Fields.get? key e.data
  withSettings e.data
    { Record.bare e.id (Loose.text (get "type")) with
      title := Loose.text? (get "title")
      presentation := Loose.presentation e.position (Loose.text? (get "desc")) }

/-- The loop that the node is a part of, named by the node or by its data. -/
def parent? (e : NodeEntry) : Option String :=
  e.parentId.orElse fun _ =>
    (Loose.text? (Fields.get? "iteration_id" e.data)).filter fun p => !p.isEmpty

end NodeEntry

/-- Adds a record at the end of the section of its loop. -/
def addToSection (sections : Table Blocks) (owner : String) (r : Record) : Table Blocks :=
  let section? := (Table.get? owner sections).getD .empty
  Table.insert owner { section? with records := section?.records ++ [r] } sections

/-- The sections that the nodes with a parent make up. -/
def sections (nodes : List NodeEntry) : Table Blocks :=
  nodes.foldl (fun table e =>
    match e.parent? with
    | some owner => addToSection table owner e.toRecord
    | none => table) ∅

/-- The document that the lists describe. -/
def Canvas.toDocument (c : Canvas) : Document where
  records := (c.nodes.filter fun e => e.parent?.isNone).map NodeEntry.toRecord
  links := c.links
  sections := sections c.nodes

/-- The part of an export that holds the lists: the value of `workflow.graph` or of
`graph`, or the export itself. -/
def graphPart (exported : Json) : Json :=
  ((exported.at? ["workflow", "graph"]).orElse fun _ => exported.get? "graph").getD exported

/-- The document of an export. -/
def parse (exported : Json) : Except FormatError Document :=
  let graph := graphPart exported
  if (graph.get? "nodes").isNone then .error (.missingField "nodes")
  else match Canvas.read graph with
    | .ok canvas => .ok canvas.toDocument
    | .error e => .error (.malformed Platform.dify.name e.message)

end WorkflowGraph.Dify
