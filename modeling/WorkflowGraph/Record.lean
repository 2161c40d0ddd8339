/-
# Records

A workflow document in the shape that conversion starts from: the nodes as their
platform describes them, with tags, handles and names still in the platform's
spelling. The settings of a node are a bag of free JSON values. The blocks of a
loop are stored on the record of the loop, or in a section of the document under
the id of the loop.
-/

import WorkflowGraph.Graph
import WorkflowGraph.Text.Blank

namespace WorkflowGraph

/-- A value that a document takes from another node. -/
structure Pointer where
  node : String
  output : String
  deriving DecidableEq, Inhabited, Repr

namespace Pointer

/-- The form in which parameters hold a pointer. -/
def toJson (p : Pointer) : Json :=
  .obj [("node_id", .str p.node), ("output_name", .str p.output)]

end Pointer

/-- Where a document takes the value of an input from. -/
inductive RecordValue
  | pointer (p : Pointer)
  | literal (j : Json)
  deriving Inhabited

/-- An input as a document declares it. -/
structure RecordInput where
  name : String
  type : Option String
  value : RecordValue
  deriving Inhabited

namespace RecordInput

/-- The pointer that the input is taken from, if any. -/
def pointer? (i : RecordInput) : Option Pointer :=
  match i.value with
  | .pointer p => some p
  | .literal _ => none

end RecordInput

/-- An output as a document declares it. -/
structure RecordOutput where
  name : String
  type : Option String
  deriving DecidableEq, Inhabited, Repr

/-- An edge as a document records it. -/
structure Link where
  id : String
  source : String
  sourceHandle : Option String
  target : String
  targetHandle : Option String
  deriving DecidableEq, Inhabited, Repr

namespace Link

/-- The id of a link, or one made of its ends when it has none. -/
def effectiveId (l : Link) : String :=
  if l.id.isEmpty then
    l.source ++ "-" ++ l.sourceHandle.getD "default" ++ "-" ++ l.target
  else l.id

/-- The handle on which the link arrives; an empty one counts as absent. -/
def arrival (l : Link) : String :=
  match l.targetHandle with
  | some handle => if handle.isEmpty then Edge.defaultTargetHandle else handle
  | none => Edge.defaultTargetHandle

end Link

mutual
/-- A node as a document describes it. -/
structure Record where
  id : String
  tag : String
  title : Option String
  params : List (String × Json)
  inputs : List RecordInput
  outputs : List RecordOutput
  blocks : Option Blocks
  presentation : Presentation

/-- The nodes and edges of one loop body. -/
structure Blocks where
  records : List Record
  links : List Link
end

namespace Blocks

/-- The body without nodes. -/
def empty : Blocks :=
  ⟨[], []⟩

instance : Inhabited Blocks := ⟨.empty⟩

end Blocks

namespace Record

/-- A record of which only the id and the tag are known. -/
def bare (id tag : String) : Record :=
  ⟨id, tag, none, [], [], [], none, ⟨none, none⟩⟩

instance : Inhabited Record := ⟨bare "" ""⟩

/-- The title, or the id of a record without one. -/
def displayTitle (r : Record) : String :=
  r.title.getD r.id

/-- A parameter. -/
def param? (r : Record) (key : String) : Option Json :=
  Fields.get? key r.params

/-- The same record with parameters added. -/
def withParams (r : Record) (entries : List (String × Json)) : Record :=
  { r with params := entries.foldl (fun t entry => Fields.insert entry.1 entry.2 t) r.params }

/-- The same record with an output added at the end. -/
def withOutput (r : Record) (name : String) (type : Option String) : Record :=
  { r with outputs := r.outputs ++ [⟨name, type⟩] }

end Record

/-- A whole document. The sections hold the bodies of loops that do not store
them on their records, under the ids of the loops. -/
structure Document where
  records : List Record
  links : List Link
  sections : Table Blocks
  deriving Inhabited

/-- Why a document cannot be converted at all. -/
inductive FormatError
  | malformed (platform : String) (reason : String)
  | syntaxError (platform : String)
  | missingField (name : String)
  | missingNodeId (index : Nat)
  | missingTypeTag (node : String)
  deriving DecidableEq, Repr

/-- The reason in words. -/
def FormatError.message : FormatError → String
  | .malformed platform reason => "Failed to parse " ++ platform ++ " document: " ++ reason
  | .syntaxError platform => "Failed to parse " ++ platform ++ " document: invalid JSON"
  | .missingField name => "Document is missing the required field '" ++ name ++ "'"
  | .missingNodeId index => "Node at position " ++ Text.ofInt index ++ " has no id"
  | .missingTypeTag node => "Node '" ++ node ++ "' has no type tag"

mutual
/-- Checks that every record of a list, and of the bodies stored on them, has an
id and a tag; `index` is the place of the first record in its list. -/
def Record.checkAll (index : Nat) : List Record → Except FormatError Unit
  | [] => .ok ()
  | ⟨id, tag, _, _, _, _, blocks, _⟩ :: rs =>
    if Text.isBlankText id then .error (.missingNodeId index)
    else if Text.isBlankText tag then .error (.missingTypeTag id)
    else match Blocks.checkOption blocks with
      | .error e => .error e
      | .ok _ => Record.checkAll (index + 1) rs

/-- Checks the body stored on a record. -/
def Blocks.checkOption : Option Blocks → Except FormatError Unit
  | none => .ok ()
  | some ⟨records, _⟩ => Record.checkAll 0 records
end

namespace Document

/-- Checks that the document can name all of its nodes. -/
def check (d : Document) : Except FormatError Unit := do
  Record.checkAll 0 d.records
  d.sections.entries.forM fun entry => Record.checkAll 0 entry.2.records

end Document

end WorkflowGraph
