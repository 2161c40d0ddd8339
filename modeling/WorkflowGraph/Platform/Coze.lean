/-
# Coze documents

A Coze canvas gives numbers for tags and stores the body of a loop on the loop
itself. The edges into a body leave the loop by a handle of their own. Inputs are
constants or name an output of another node.
-/

import WorkflowGraph.Platform.Loose
import WorkflowGraph.Record.Json

namespace WorkflowGraph.Coze

open Json (Reader)
open Json.Reader.Field (required optional defaulted)

/-- Reads an edge. Edges have no ids, and an empty handle means no handle. -/
def readLink : Reader Link :=
  Reader.record "CozeEdge" default
    [(required "source_node_id" Reader.text fun v l => { l with source := v }).orNamed
       "sourceNodeID",
     (required "target_node_id" Reader.text fun v l => { l with target := v }).orNamed
       "targetNodeID",
     (defaulted "source_port_id" (Reader.option Reader.text) fun v l =>
       { l with sourceHandle := v.filter fun p => !p.isEmpty }).orNamed "sourcePortID",
     (defaulted "target_port_id" (Reader.option Reader.text) fun v l =>
       { l with targetHandle := v.filter fun p => !p.isEmpty }).orNamed "targetPortID"]

/-- A node, with the nodes and edges of its body. -/
structure NodeEntry where
  id : String
  type : Json
  board : Option Json
  data : List (String × Json)
  blocks : Option (List NodeEntry)
  links : Option (List Link)

instance : Inhabited NodeEntry := ⟨"", .null, none, [], none, none⟩

/-- Reads nodes whose bodies nest at most the given number of levels. -/
def NodeEntry.readWithin : Nat → Reader NodeEntry
  | 0 => fun _ => .error .tooDeep
  | n + 1 => Reader.record "CozeNode" default
    [defaulted "id" Reader.text fun v e => { e with id := v },
     defaulted "type" Reader.any fun v e => { e with type := v },
     defaulted "meta" (Reader.option Reader.any) fun v e => { e with board := v },
     defaulted "data" (Reader.fields Reader.any) fun v e => { e with data := v },
     defaulted "blocks" (Reader.option (Reader.list (NodeEntry.readWithin n))) fun v e =>
       { e with blocks := v },
     defaulted "edges" (Reader.option (Reader.list readLink)) fun v e => { e with links := v }]

/-- Reads a node. -/
def NodeEntry.read : Reader NodeEntry :=
  Reader.nested NodeEntry.readWithin

/-- The outermost nodes and edges of a document. -/
structure Canvas where
  nodes : List NodeEntry
  links : List Link

/-- Reads a canvas. -/
def Canvas.read : Reader Canvas :=
  Reader.record "CozeCanvas" ⟨[], []⟩
    [required "nodes" (Reader.list NodeEntry.read) fun v c => { c with nodes := v },
     defaulted "edges" (Reader.list readLink) fun v c => { c with links := v }]

/-- The output that an input names, when it is not a constant. -/
def pointer? (input : Option Json) : Option Pointer := do
  let value ← Loose.field? input "value"
  let kind ← (value.get? "type").bind Json.str?
  if kind == "ref" then
    let content ← value.get? "content"
    let node ← Loose.text? (content.get? "blockID")
    let output ← Loose.text? (content.get? "name")
    return ⟨node, output⟩
  else none

/-- The constant value of an input. -/
def constant (input : Option Json) : Json :=
  Loose.orNull (input.bind fun j => j.at? ["value", "content"])

/-- The input that a parameter describes. -/
def input? (j : Json) : Option RecordInput :=
  (Loose.text? (j.get? "name")).map fun name =>
    let input := j.get? "input"
    ⟨name, Loose.text? (Loose.field? input "type"),
      match pointer? input with
      | some p => .pointer p
      | none => .literal (constant input)⟩

/-- The output that a node declares. -/
def output? (j : Json) : Option RecordOutput :=
  (Loose.text? (j.get? "name")).map fun name => ⟨name, (j.get? "type").bind Json.str?⟩

/-- The first of the inputs that is taken from another node. -/
def firstPointer? (inputs : List RecordInput) : Option Pointer :=
  inputs.findSome? RecordInput.pointer?

/-- The parameter that describes the model of a node. -/
def model (settings : Fields Json) : Json :=
  Loose.model (Loose.text? (Fields.get? "modelType" settings))
    (Loose.text? (Fields.get? "modelName" settings))
    (Loose.number? (Fields.get? "temperature" settings))
    (Loose.number? (Fields.get? "maxTokens" settings))

/-- The comparisons, by their numbers. -/
def operators : List (Nat × String) :=
  [(1, "=="), (2, "!="), (3, "length >"), (4, "length >="), (5, "length <"), (6, "length <="),
   (7, "contains"), (8, "not contains"), (9, "is empty"), (10, "is not empty"),
   (11, "is true"), (12, "is false"), (13, ">"), (14, ">="), (15, "<"), (16, "<=")]

/-- The comparison of a number. -/
def operatorOfNumber? (x : Binary64) : Option String :=
  (operators.find? fun entry => x.isInt entry.1).map Prod.snd

/-- The comparison that a field names: by number, or in words that are kept. -/
def operator (j : Option Json) : String :=
  ((Loose.number? j).bind operatorOfNumber?).getD (Loose.text j)

/-- The parameter for one comparison. -/
def condition (j : Json) : Json :=
  .object [("left", Loose.pointer (pointer? (j.at? ["left", "input"]))),
    ("operator", .str (operator (j.get? "operator"))),
    ("right", Loose.orNull (j.at? ["right", "input", "value", "content"]))]

/-- Whether a number joins conditions by `or`; every other one joins them by `and`. -/
def joinsByOr (logic : Option Json) : Bool :=
  match Loose.number? logic with
  | some x => x.isInt 1
  | none => false

/-- The parameter for the branch at a position. -/
def branch (index : Nat) (j : Json) : Json :=
  let group := j.get? "condition"
  .object [("id", .str (Text.ofInt index)),
    ("logical_operator", .str (if joinsByOr (Loose.field? group "logic") then "or" else "and")),
    ("conditions", .arr ((Loose.items (Loose.field? group "conditions")).map condition))]

/-- The parameter for the class at a position. -/
def classLabel (index : Nat) (j : Json) : Json :=
  .object [("id", .str (Text.ofInt index)), ("name", .str (Loose.text (j.get? "name")))]

/-- The name of the language of a code node: the number 5 is one language and any
other number another; a word is kept. -/
def languageName (j : Option Json) : String :=
  match Loose.number? j with
  | some x => if x.isInt 5 then "javascript" else "python3"
  | none => (Loose.text? j).getD "python3"

/-- Adds to a record what the data of a node says for its tag. -/
def withSettings (data : List (String × Json)) (r : Record) : Record :=
  let get (key : String) : Option Json := Loose.field? (Fields.get? "inputs" data) key
  let settings := Loose.pairs (get "llmParam")
  let setting (key : String) : Option Json := Fields.get? key settings
  match r.tag with
  | "2" =>
    let content := get "content"
    let answer := (content.bind fun j => j.at? ["value", "content"]).orElse fun _ => content
    r.withParams [("answer", .ofText? (Loose.text? answer))]
  | "3" =>
    r.withParams [("model", model settings),
      ("system_prompt", .ofText? (Loose.text? (setting "systemPrompt"))),
      ("prompt", .str (Loose.text (setting "prompt")))]
  | "5" =>
    r.withParams [("language", .str (languageName (get "language"))),
      ("code", .str (Loose.text (get "code")))]
  | "8" => r.withParams [("cases", .arr ((Loose.items (get "branches")).mapIdx branch))]
  | "22" =>
    r.withParams [("model", model settings), ("query", Loose.pointer (firstPointer? r.inputs)),
      ("instruction", .ofText? (Loose.text? (setting "systemPrompt"))),
      ("classes", .arr ((Loose.items (get "intents")).mapIdx classLabel))]
  | "21" =>
    let output := (Loose.items (Fields.get? "outputs" data)).head?
    r.withParams [("iterator", Loose.pointer (firstPointer? r.inputs)),
      ("output", Loose.pointer (pointer? (Loose.field? output "input"))),
      ("output_type", .ofText? (Loose.text? (Loose.field? output "type"))),
      ("parallel", .bool (Loose.flag (get "parallel")))]
  | _ => r

namespace NodeEntry

/-- The tag of a node. -/
def tag (e : NodeEntry) : String :=
  Loose.text (some e.type)

/-- The record of a node, without a body. -/
def head (e : NodeEntry) : Record :=
  let title := Fields.get? "nodeMeta" e.data
  withSettings e.data
    { Record.bare e.id e.tag with
      title := Loose.text? (Loose.field? title "title")
      presentation := Loose.presentation (Loose.field? e.board "position")
        (Loose.text? (Loose.field? title "description"))
      inputs := (Loose.items (Loose.field? (Fields.get? "inputs" e.data) "inputParameters")
        ).filterMap input?
      outputs := (Loose.items (Fields.get? "outputs" e.data)).filterMap output? }

end NodeEntry

mutual
/-- The record of a node. Only loops have bodies: the blocks of any other node are
not part of the document. -/
def NodeEntry.toRecord : NodeEntry → Record
  | ⟨id, type, board, data, blocks, links⟩ =>
    let e : NodeEntry := ⟨id, type, board, data, blocks, links⟩
    let body := NodeEntry.optionToRecords blocks
    if e.tag == "21" then { e.head with blocks := some ⟨body, links.getD []⟩ } else e.head

/-- The records of a list of nodes that may be absent. -/
def NodeEntry.optionToRecords : Option (List NodeEntry) → List Record
  | none => []
  | some entries => NodeEntry.toRecords entries

/-- The records of a list of nodes. -/
def NodeEntry.toRecords : List NodeEntry → List Record
  | [] => []
  | e :: es => e.toRecord :: NodeEntry.toRecords es
end

/-- The document of a canvas. -/
def parse (exported : Json) : Except FormatError Document :=
  if (exported.get? "nodes").isNone then .error (.missingField "nodes")
  else match Canvas.read exported with
    | .ok canvas => .ok ⟨NodeEntry.toRecords canvas.nodes, canvas.links, ∅⟩
    | .error e => .error (.malformed Platform.coze.name e.message)

end WorkflowGraph.Coze
