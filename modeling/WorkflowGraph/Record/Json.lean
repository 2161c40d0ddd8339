/-
# Records as JSON

The JSON notation of documents in the shape that conversion starts from, and its
reader. Every field of a document, a body, a record and a link has a default.
-/

import WorkflowGraph.Graph.Json
import WorkflowGraph.Record

namespace WorkflowGraph

open Json (Reader)
open Json.Reader (Variant)
open Json.Reader.Field (required optional defaulted)

namespace Pointer

/-- Reads a pointer. -/
def read : Reader Pointer :=
  Reader.record "RawReference" default
    [required "node_id" Reader.text fun v p => { p with node := v },
     required "output_name" Reader.text fun v p => { p with output := v }]

end Pointer

namespace RecordValue

/-- The notation of the value of an input. -/
def toJson : RecordValue → Json
  | .pointer p => .tagged "Reference" p.toJson
  | .literal j => .tagged "Literal" j

/-- Reads the value of an input. -/
def read : Reader RecordValue :=
  Reader.variants [.of "Reference" Pointer.read .pointer, .of "Literal" Reader.any .literal]

end RecordValue

namespace RecordInput

/-- The notation of an input. -/
def toJson (i : RecordInput) : Json :=
  .obj [("name", .str i.name), ("var_type", .ofText? i.type), ("value", i.value.toJson)]

/-- Reads an input. -/
def read : Reader RecordInput :=
  Reader.record "RawInput" default
    [required "name" Reader.text fun v i => { i with name := v },
     optional "var_type" Reader.text fun v i => { i with type := v },
     required "value" RecordValue.read fun v i => { i with value := v }]

end RecordInput

namespace RecordOutput

/-- The notation of an output. -/
def toJson (o : RecordOutput) : Json :=
  .obj [("name", .str o.name), ("var_type", .ofText? o.type)]

/-- Reads an output. -/
def read : Reader RecordOutput :=
  Reader.record "RawOutput" default
    [required "name" Reader.text fun v o => { o with name := v },
     optional "var_type" Reader.text fun v o => { o with type := v }]

end RecordOutput

namespace Link

/-- The notation of a link. -/
def toJson (l : Link) : Json :=
  .obj [("id", .str l.id), ("source", .str l.source),
    ("source_handle", .ofText? l.sourceHandle), ("target", .str l.target),
    ("target_handle", .ofText? l.targetHandle)]

/-- Reads a link. -/
def read : Reader Link :=
  Reader.record "RawEdge" default
    [defaulted "id" Reader.text fun v l => { l with id := v },
     defaulted "source" Reader.text fun v l => { l with source := v },
     defaulted "source_handle" (Reader.option Reader.text) fun v l => { l with sourceHandle := v },
     defaulted "target" Reader.text fun v l => { l with target := v },
     defaulted "target_handle" (Reader.option Reader.text) fun v l => { l with targetHandle := v }]

end Link

mutual
/-- The notation of a record. -/
def Record.toJson : Record → Json
  | ⟨id, tag, title, params, inputs, outputs, blocks, presentation⟩ =>
    .obj [("id", .str id), ("type_tag", .str tag), ("title", .ofText? title),
      ("params", .obj params), ("inputs", .ofList RecordInput.toJson inputs),
      ("outputs", .ofList RecordOutput.toJson outputs), ("blocks", Blocks.optionToJson blocks),
      ("meta", presentation.toJson)]

/-- The notation of every record of a list. -/
def Record.listToJson : List Record → List Json
  | [] => []
  | r :: rs => r.toJson :: Record.listToJson rs

/-- The notation of a body that may be absent. -/
def Blocks.optionToJson : Option Blocks → Json
  | none => .null
  | some b => b.toJson

/-- The notation of a body. -/
def Blocks.toJson : Blocks → Json
  | ⟨records, links⟩ =>
    .obj [("nodes", .arr (Record.listToJson records)), ("edges", .ofList Link.toJson links)]
end

/-- Reads a body, given how to read a record. -/
def Blocks.reader (readRecord : Reader Record) : Reader Blocks :=
  Reader.record "RawBlocks" default
    [defaulted "nodes" (Reader.list readRecord) fun v b => { b with records := v },
     defaulted "edges" (Reader.list Link.read) fun v b => { b with links := v }]

/-- Reads records whose bodies nest at most the given number of levels. -/
def Record.readWithin : Nat → Reader Record
  | 0 => fun _ => .error .tooDeep
  | n + 1 => Reader.record "RawNode" default
    [defaulted "id" Reader.text fun v r => { r with id := v },
     defaulted "type_tag" Reader.text fun v r => { r with tag := v },
     defaulted "title" (Reader.option Reader.text) fun v r => { r with title := v },
     defaulted "params" (Reader.fields Reader.any) fun v r => { r with params := v },
     defaulted "inputs" (Reader.list RecordInput.read) fun v r => { r with inputs := v },
     defaulted "outputs" (Reader.list RecordOutput.read) fun v r => { r with outputs := v },
     defaulted "blocks" (Reader.option (Blocks.reader (Record.readWithin n)))
       fun v r => { r with blocks := v },
     defaulted "meta" Presentation.read fun v r => { r with presentation := v }]

/-- Reads a record. -/
def Record.read : Reader Record :=
  Reader.nested Record.readWithin

/-- Reads a body. -/
def Blocks.read : Reader Blocks :=
  Blocks.reader Record.read

namespace Document

/-- The notation of a document. -/
def toJson (d : Document) : Json :=
  .obj [("nodes", .arr (Record.listToJson d.records)), ("edges", .ofList Link.toJson d.links),
    ("nested", .obj (d.sections.entries.map fun entry => (entry.1, entry.2.toJson)))]

/-- Reads a document. -/
def read : Reader Document :=
  Reader.record "RawDocument" default
    [defaulted "nodes" (Reader.list Record.read) fun v d => { d with records := v },
     defaulted "edges" (Reader.list Link.read) fun v d => { d with links := v },
     defaulted "nested" (Reader.table Blocks.read) fun v d => { d with sections := v }]

end Document

end WorkflowGraph
