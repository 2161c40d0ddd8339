/-
# Writing JSON text

Two layouts: everything on one line, and one entry a line with two spaces of
indentation for each enclosing container. Fields are written in the order in
which the object lists them.
-/

import WorkflowGraph.Json

namespace WorkflowGraph.Json

/-- One character inside a JSON string: quotes, backslashes and control
characters are escaped, and nothing else is. -/
def stringChar (c : Char) : List Char :=
  match c with
  | '"' => ['\\', '"']
  | '\\' => ['\\', '\\']
  | '\x08' => ['\\', 'b']
  | '\x0c' => ['\\', 'f']
  | '\n' => ['\\', 'n']
  | '\r' => ['\\', 'r']
  | '\t' => ['\\', 't']
  | c =>
    if c.toNat < 0x10 then '\\' :: 'u' :: '0' :: '0' :: '0' :: Text.hexOfNat c.toNat
    else if c.toNat < 0x20 then '\\' :: 'u' :: '0' :: '0' :: Text.hexOfNat c.toNat
    else [c]

/-- A JSON string. -/
def stringText (s : String) : String :=
  String.ofList ('"' :: s.toList.flatMap stringChar ++ ['"'])

mutual
/-- Appends a value on one line. -/
def appendCompact (out : String) : Json → String
  | .null => out ++ "null"
  | .bool true => out ++ "true"
  | .bool false => out ++ "false"
  | .num n => out ++ n.text
  | .str s => out ++ stringText s
  | .arr [] => out ++ "[]"
  | .arr (j :: js) => appendCompactItems (appendCompact (out ++ "[") j) js
  | .obj [] => out ++ "\x7b\x7d"
  | .obj ((k, j) :: fs) =>
    appendCompactFields (appendCompact (out ++ "\x7b" ++ stringText k ++ ":") j) fs

/-- Appends the items after the first one, and the closing bracket. -/
def appendCompactItems (out : String) : List Json → String
  | [] => out ++ "]"
  | j :: js => appendCompactItems (appendCompact (out ++ ",") j) js

/-- Appends the fields after the first one, and the closing bracket. -/
def appendCompactFields (out : String) : List (String × Json) → String
  | [] => out ++ "\x7d"
  | (k, j) :: fs => appendCompactFields (appendCompact (out ++ "," ++ stringText k ++ ":") j) fs
end

/-- A value on one line. -/
def compact (j : Json) : String :=
  appendCompact "" j

/-- A new line inside the given number of containers. -/
def newLine (level : Nat) : String :=
  String.ofList ('\n' :: List.replicate (2 * level) ' ')

mutual
/-- Appends a value on as many lines as it has entries, inside `level` containers. -/
def appendPretty (level : Nat) (out : String) : Json → String
  | .null => out ++ "null"
  | .bool true => out ++ "true"
  | .bool false => out ++ "false"
  | .num n => out ++ n.text
  | .str s => out ++ stringText s
  | .arr [] => out ++ "[]"
  | .arr (j :: js) =>
    appendPrettyItems level (appendPretty (level + 1) (out ++ "[" ++ newLine (level + 1)) j) js
  | .obj [] => out ++ "\x7b\x7d"
  | .obj ((k, j) :: fs) =>
    let out := out ++ "\x7b" ++ newLine (level + 1) ++ stringText k ++ ": "
    appendPrettyFields level (appendPretty (level + 1) out j) fs

/-- Appends the items after the first one, and the closing bracket. -/
def appendPrettyItems (level : Nat) (out : String) : List Json → String
  | [] => out ++ newLine level ++ "]"
  | j :: js =>
    appendPrettyItems level (appendPretty (level + 1) (out ++ "," ++ newLine (level + 1)) j) js

/-- Appends the fields after the first one, and the closing bracket. -/
def appendPrettyFields (level : Nat) (out : String) : List (String × Json) → String
  | [] => out ++ newLine level ++ "\x7d"
  | (k, j) :: fs =>
    let out := out ++ "," ++ newLine (level + 1) ++ stringText k ++ ": "
    appendPrettyFields level (appendPretty (level + 1) out j) fs
end

/-- A value in the layout with one entry a line. -/
def pretty (j : Json) : String :=
  appendPretty 0 "" j

end WorkflowGraph.Json
