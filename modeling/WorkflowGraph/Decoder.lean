/-
# Decoding records

A decoder turns a record into a node. It sees the resolver of the document and
the ids that are known to be missing from the graph or to be replaced in it. A
record that no decoder understands can still be replaced by a placeholder: a code
node with the same id that says what has to be converted by hand.
-/

import WorkflowGraph.Platform
import WorkflowGraph.Resolver

namespace WorkflowGraph

/-- Why a record could not be decoded. -/
inductive DecodeError
  | notRegistered (tag : String)
  | invalidParams (node reason : String)
  deriving DecidableEq, Repr

/-- The reason in words. -/
def DecodeError.message : DecodeError → String
  | .notRegistered tag => "No decoder is registered for type tag '" ++ tag ++ "'"
  | .invalidParams node reason => "Node '" ++ node ++ "' has invalid parameters: " ++ reason

/-- What a decoder knows about the document. -/
structure DecodeContext where
  platform : Platform
  resolver : Resolver
  removed : List String

namespace DecodeContext

/-- The reference that a pointer means. -/
def capture (ctx : DecodeContext) (p : Pointer) (type : VarType) : Reference :=
  ctx.resolver.resolve p.node p.output type

/-- Whether an id is known to be missing or replaced. -/
def isRemoved (ctx : DecodeContext) (id : String) : Bool :=
  ctx.removed.contains id

/-- The type of a constant that has no declared one. -/
def inferType : Json → VarType
  | .str _ => .string
  | .num _ => .number
  | .bool _ => .boolean
  | .arr _ => .array
  | .obj _ => .object
  | .null => .any

/-- The input that a record declares. -/
def input (ctx : DecodeContext) (i : RecordInput) : Input :=
  let declared := i.type.map VarType.parse
  match i.value with
  | .pointer p => .ofReference i.name (ctx.capture p (declared.getD .any))
  | .literal j => .ofLiteral i.name (declared.getD (inferType j)) (.ofJson j)

/-- The outputs of a list whose names have not been `seen`; a repeated name keeps
its first declaration. -/
def outputsAfter (seen : List String) : List RecordOutput → List Output
  | [] => []
  | o :: os =>
    if seen.contains o.name then outputsAfter seen os
    else ⟨o.name, (o.type.map VarType.parse).getD .string⟩ :: outputsAfter (o.name :: seen) os

/-- The outputs that a record declares. -/
def outputs (os : List RecordOutput) : List Output :=
  outputsAfter [] os

/-- The node with given settings and everything else as its record declares it. -/
def node (ctx : DecodeContext) (r : Record) (config : Config) : Node :=
  { Node.ofConfig r.id r.displayTitle config with
    inputs := r.inputs.map ctx.input
    outputs := outputs r.outputs
    presentation := r.presentation }

end DecodeContext

/-- A way to decode records, with the kind of the nodes that it announces. -/
structure Decoder where
  kind : NodeKind
  decode : DecodeContext → Record → Except DecodeError Node

/-- The name of the output of every iteration node. -/
def iterationOutput : String := "output"

/-- The name of the output of every placeholder. -/
def placeholderOutput : String := "output"

/-- The code of a placeholder. -/
def placeholderCode (platform : Platform) (r : Record) : String :=
  "# Unsupported " ++ platform.name ++ " node type '" ++ r.tag ++ "' (node '" ++ r.id
    ++ "'); convert this step manually.\ndef main() -> dict:\n    return \x7b\""
    ++ placeholderOutput ++ "\": \"\"\x7d\n"

/-- The node that takes the place of a record that could not be decoded. It keeps
the id, so that edges to it remain valid. -/
def placeholder (platform : Platform) (r : Record) : Node :=
  { Node.ofConfig r.id (r.displayTitle ++ " [manual: unsupported " ++ r.tag ++ "]")
      (.code ⟨.python3, placeholderCode platform r⟩) with
    outputs := [⟨placeholderOutput, .string⟩]
    presentation := r.presentation }

end WorkflowGraph
