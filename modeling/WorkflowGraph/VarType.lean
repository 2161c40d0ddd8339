/-
# Variable types

The declared type of an input, an output or a reference, and the many spellings
under which documents name it. A spelling that is not known means any type: type
names are metadata and never a reason to refuse a document.
-/

import WorkflowGraph.Text.Ascii
import WorkflowGraph.Text.Blank

namespace WorkflowGraph

/-- The type of a value that flows through a workflow. -/
inductive VarType
  | string
  | number
  | integer
  | boolean
  | object
  | file
  | arrayString
  | arrayNumber
  | arrayBoolean
  | arrayObject
  | arrayFile
  | array
  | any
  deriving DecidableEq, Inhabited, Repr

namespace VarType

/-- Every variable type. -/
def all : List VarType :=
  [.string, .number, .integer, .boolean, .object, .file, .arrayString, .arrayNumber,
   .arrayBoolean, .arrayObject, .arrayFile, .array, .any]

/-- The name shown to people. -/
def display : VarType → String
  | .string => "string"
  | .number => "number"
  | .integer => "integer"
  | .boolean => "boolean"
  | .object => "object"
  | .file => "file"
  | .arrayString => "array[string]"
  | .arrayNumber => "array[number]"
  | .arrayBoolean => "array[boolean]"
  | .arrayObject => "array[object]"
  | .arrayFile => "array[file]"
  | .array => "array"
  | .any => "any"

/-- The spellings of each type, in the form that `normalized` produces. -/
def spellings : List (VarType × List String) :=
  [(.string, ["string", "str", "text", "text_input", "paragraph", "select"]),
   (.number, ["number", "float", "double"]),
   (.integer, ["integer", "int"]),
   (.boolean, ["boolean", "bool"]),
   (.object, ["object", "json", "dict"]),
   (.file, ["file"]),
   (.arrayString, ["array[string]", "array<string>", "list<string>", "array_string"]),
   (.arrayNumber, ["array[number]", "array<number>", "array[integer]", "array<integer>",
     "array_number"]),
   (.arrayBoolean, ["array[boolean]", "array<boolean>", "array_boolean"]),
   (.arrayObject, ["array[object]", "array<object>", "list<object>", "array_object"]),
   (.arrayFile, ["array[file]", "array<file>", "file_list", "array_file"]),
   (.array, ["array", "list"])]

/-- A spelling without blank ends, in small letters, and with underscores for
hyphens and spaces. -/
def normalized (s : String) : String :=
  String.ofList <| (Text.lower (Text.trim s)).toList.map fun c =>
    if c == '-' || c == ' ' then '_' else c

/-- The type that a spelling names; any type for an unknown one. -/
def parse (s : String) : VarType :=
  match spellings.find? fun entry => entry.2.contains (normalized s) with
  | some (t, _) => t
  | none => .any

/-- Whether values of the type are lists. -/
def isArray : VarType → Bool
  | .arrayString | .arrayNumber | .arrayBoolean | .arrayObject | .arrayFile | .array => true
  | _ => false

/-- The type of the elements of a list type; any other type is its own. -/
def element : VarType → VarType
  | .arrayString => .string
  | .arrayNumber => .number
  | .arrayBoolean => .boolean
  | .arrayObject => .object
  | .arrayFile => .file
  | .array => .any
  | t => t

end VarType

end WorkflowGraph
