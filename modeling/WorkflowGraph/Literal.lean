/-
# Literals

The constant values that inputs and conditions carry. They are JSON values
without the distinction between whole and floating-point numbers, and objects
list their fields in order.
-/

import WorkflowGraph.Json
import WorkflowGraph.Text.Quoted

namespace WorkflowGraph

/-- A constant. -/
inductive Literal
  | null
  | bool (b : Bool)
  | number (x : Binary64)
  | string (s : String)
  | array (items : List Literal)
  | object (fields : List (String × Literal))
  deriving Inhabited

namespace Literal

mutual
/-- The constant that a JSON value stands for. -/
def ofJson : Json → Literal
  | .null => .null
  | .bool b => .bool b
  | .num n => .number n.toFloat
  | .str s => .string s
  | .arr items => .array (ofItems items)
  | .obj fields => .object (ofFields fields)

/-- The constants of a list of values. -/
def ofItems : List Json → List Literal
  | [] => []
  | j :: js => ofJson j :: ofItems js

/-- The constants of a list of fields. -/
def ofFields : List (String × Json) → List (String × Literal)
  | [] => []
  | (k, j) :: fs => (k, ofJson j) :: ofFields fs
end

/-- The text of a string. -/
def string? : Literal → Option String
  | .string s => some s
  | _ => none

/-- Whether the constant is null. -/
def isNull : Literal → Bool
  | .null => true
  | _ => false

/-- A number as shown to people: whole numbers without a point and brought into
the range of 64-bit integers, others without an exponent. -/
def numberText (x : Binary64) : String :=
  if x.isIntegral then Text.ofInt (x.clampedInt (-0x8000000000000000) 0x7fffffffffffffff)
  else x.plainText

mutual
/-- The constant as shown to people. -/
def display : Literal → String
  | .null => "null"
  | .bool true => "true"
  | .bool false => "false"
  | .number x => numberText x
  | .string s => Text.quoted s
  | .array items => "[" ++ ", ".intercalate (displayItems items) ++ "]"
  | .object fields => "\x7b" ++ ", ".intercalate (displayFields fields) ++ "\x7d"

/-- Every item of a list as shown to people. -/
def displayItems : List Literal → List String
  | [] => []
  | l :: ls => l.display :: displayItems ls

/-- Every field of a list as shown to people. -/
def displayFields : List (String × Literal) → List String
  | [] => []
  | (k, l) :: fs => (Text.quoted k ++ ": " ++ l.display) :: displayFields fs
end

end Literal

end WorkflowGraph
