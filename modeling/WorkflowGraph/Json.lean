/-
# JSON values

The values that a workflow document is made of. Whole numbers and floating-point
numbers are two kinds: `5` and `5.0` are different values, and both are kept.
An object lists its fields; a document that was read lists them in ascending
order of the names with no name twice, and `object` builds such a list.
-/

import WorkflowGraph.Binary64.Text
import WorkflowGraph.Table

namespace WorkflowGraph

/-- A JSON number: a whole number, or a floating-point number for anything
written with a point or an exponent or out of the range of 64-bit integers. -/
inductive Number
  | int (i : Int)
  | float (x : Binary64)
  deriving DecidableEq, Repr

namespace Number

/-- The nearest floating-point number. -/
def toFloat : Number → Binary64
  | .int i => .ofInt i
  | .float x => x

/-- The number in JSON notation. Only finite numbers have one. -/
def text : Number → String
  | .int i => Text.ofInt i
  | .float x => x.dataText

end Number

/-- A JSON value. -/
inductive Json
  | null
  | bool (b : Bool)
  | num (n : Number)
  | str (s : String)
  | arr (items : List Json)
  | obj (fields : List (String × Json))
  deriving Inhabited

namespace Json

/-- The object with the given fields, in ascending order of their names; a
repeated name keeps its last value. -/
def object (fields : List (String × Json)) : Json :=
  .obj (Fields.ofList fields)

/-- A whole number. -/
def nat (n : Nat) : Json :=
  .num (.int n)

/-- A floating-point number, or null when it is not finite: JSON has no notation
for infinities and NaNs. -/
def ofFloat (x : Binary64) : Json :=
  if x.isFinite then .num (.float x) else .null

/-- A value that may be absent, with null for absence. -/
def ofOption {α : Type} (write : α → Json) : Option α → Json
  | some a => write a
  | none => .null

/-- A text that may be absent, with null for absence. -/
def ofText? (s : Option String) : Json :=
  ofOption .str s

/-- A list of values. -/
def ofList {α : Type} (write : α → Json) (items : List α) : Json :=
  .arr (items.map write)

/-- The field of an object; nothing for a missing field and for other values. -/
def get? (key : String) : Json → Option Json
  | .obj fields => Fields.get? key fields
  | _ => none

/-- The value at the end of a path of field names. -/
def at? : List String → Json → Option Json
  | [], j => some j
  | key :: path, j => (j.get? key).bind (at? path)

/-- The text of a string. -/
def str? : Json → Option String
  | .str s => some s
  | _ => none

/-- The items of an array; none for other values. -/
def items : Json → List Json
  | .arr items => items
  | _ => []

mutual
/-- How many values enclose one another at the deepest place. -/
def depth : Json → Nat
  | .arr items => depthOfItems items + 1
  | .obj fields => depthOfFields fields + 1
  | _ => 1

/-- The greatest depth in a list of values. -/
def depthOfItems : List Json → Nat
  | [] => 0
  | j :: js => max j.depth (depthOfItems js)

/-- The greatest depth in a list of fields. -/
def depthOfFields : List (String × Json) → Nat
  | [] => 0
  | (_, j) :: fs => max j.depth (depthOfFields fs)
end

mutual
/-- The same value with the fields of every object in ascending order, the last
of equal names kept. -/
def sorted : Json → Json
  | .arr items => .arr (sortedItems items)
  | .obj fields => object (sortedFields fields)
  | j => j

/-- Every item of a list, sorted. -/
def sortedItems : List Json → List Json
  | [] => []
  | j :: js => j.sorted :: sortedItems js

/-- Every field of a list with its value sorted; the list keeps its order. -/
def sortedFields : List (String × Json) → List (String × Json)
  | [] => []
  | (k, j) :: fs => (k, j.sorted) :: sortedFields fs
end

end Json

end WorkflowGraph
