/-
# Loosely typed fields

Platform documents spell one concept in several ways: a number as a string, a
list of name and value pairs in place of an object, a reference inside a
template. The functions here accept every spelling and give one shape, the shape
that the parameters of a record have.
-/

import WorkflowGraph.Platform
import WorkflowGraph.Record
import WorkflowGraph.Text.Ends

namespace WorkflowGraph.Loose

/-- A string, or a number or truth value written as one. -/
def text? : Option Json → Option String
  | some (.str s) => some s
  | some (.num n) => some n.text
  | some (.bool true) => some "true"
  | some (.bool false) => some "false"
  | _ => none

/-- The text, or the empty text. -/
def text (j : Option Json) : String :=
  (text? j).getD ""

/-- A number, or a string that holds one. -/
def number? : Option Json → Option Binary64
  | some (.num n) => some n.toFloat
  | some (.str s) => Binary64.ofText? (Text.trim s)
  | _ => none

/-- Whether a number fits in a signed 64-bit integer and is not zero. -/
def isNonzeroInt : Number → Bool
  | .int i => i != 0 && i ≤ 0x7fffffffffffffff
  | .float _ => false

/-- A truth value: true, the word `true`, or a whole number other than zero. -/
def flag : Option Json → Bool
  | some (.bool b) => b
  | some (.str s) => Text.sameIgnoringCase s "true"
  | some (.num n) => isNonzeroInt n
  | _ => false

/-- The field of a value that may be absent. -/
def field? (j : Option Json) (key : String) : Option Json :=
  j.bind fun j => j.get? key

/-- A value, or null when it is absent. -/
def orNull (j : Option Json) : Json :=
  j.getD .null

/-- The items of an array; none for any other value. -/
def items (j : Option Json) : List Json :=
  match j with
  | some (.arr items) => items
  | _ => []

/-- A position: an object with two numbers. -/
def position? (j : Option Json) : Option Position := do
  let x ← number? (field? j "x")
  let y ← number? (field? j "y")
  return ⟨x, y⟩

/-- A presentation; an empty description counts as absent. -/
def presentation (position : Option Json) (description : Option String) : Presentation :=
  ⟨position? position, description.filter fun d => !d.isEmpty⟩

/-- The parameter that describes a model. -/
def model (provider name : Option String) (temperature maxTokens : Option Binary64) : Json :=
  .object [("provider", .ofText? provider), ("name", .str (name.getD "")),
    ("temperature", .ofOption .ofFloat temperature),
    ("max_tokens", .ofOption (fun x => .num (.int (x.clampedInt 0 0xffffffff))) maxTokens)]

/-- The parameter that holds a pointer, or null. -/
def pointer (p : Option Pointer) : Json :=
  .ofOption Pointer.toJson p

/-- The name and the value that one entry of a list of pairs describes. -/
def pair? (j : Json) : Option (String × Json) :=
  ((j.get? "name").bind Json.str?).map fun name =>
    (name, ((j.at? ["input", "value", "content"]).orElse fun _ => j.get? "value").getD .null)

/-- An object, or a list of pairs made into one. -/
def pairs : Option Json → Fields Json
  | some (.obj fields) => fields
  | some (.arr items) => Fields.ofList (items.filterMap pair?)
  | _ => []

/-- The characters of a template without the brackets around them. -/
def templateBody? (cs : List Char) : Option (List Char) :=
  (Text.dropStart? ['$', '\x7b'] cs).bind (Text.dropEnd? ['\x7d'])

/-- The pointer that a template holds when it is nothing but one placeholder: a
node and an output joined by a point, the first one if there are several. -/
def template? (s : String) : Option Pointer := do
  let body ← templateBody? (Text.trimChars s.toList)
  let node := body.takeWhile (· != '.')
  let output ← Text.dropStart? ['.'] (body.dropWhile (· != '.'))
  if node.isEmpty || output.isEmpty || body.any (fun c => c == '\x7b' || c == '\x7d' || c == '$')
  then none
  else some ⟨String.ofList node, String.ofList output⟩

end WorkflowGraph.Loose
