/-
# Quoted text

A text between double quotes in which every character that could be mistaken
for another, or not be seen at all, is written as an escape. The single quote
needs none.
-/

import WorkflowGraph.Text.Ascii
import WorkflowGraph.Text.Visible

namespace WorkflowGraph.Text

/-- The escape that names a code point by its hexadecimal number. -/
def numbered (c : Char) : List Char :=
  '\\' :: 'u' :: '\x7b' :: hexOfNat c.toNat ++ ['\x7d']

/-- One character inside a quoted text. -/
def quotedChar (c : Char) : List Char :=
  match c with
  | '\x00' => ['\\', '0']
  | '\t' => ['\\', 't']
  | '\r' => ['\\', 'r']
  | '\n' => ['\\', 'n']
  | '\\' => ['\\', '\\']
  | '"' => ['\\', '"']
  | c => if isVisible c then [c] else numbered c

/-- A text between double quotes, with escapes. -/
def quoted (s : String) : String :=
  String.ofList ('"' :: s.toList.flatMap quotedChar ++ ['"'])

end WorkflowGraph.Text
