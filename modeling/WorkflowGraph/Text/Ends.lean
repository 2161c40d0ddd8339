/-
# The ends of a text

Removing a known beginning or end from a list of characters.
-/

namespace WorkflowGraph.Text

/-- What follows the given beginning, if the list begins that way. -/
def dropStart? : List Char → List Char → Option (List Char)
  | [], cs => some cs
  | _ :: _, [] => none
  | p :: ps, c :: cs => if p = c then dropStart? ps cs else none

/-- What precedes the given end, if the list ends that way. -/
def dropEnd? (ending cs : List Char) : Option (List Char) :=
  (dropStart? ending.reverse cs.reverse).map List.reverse

end WorkflowGraph.Text
