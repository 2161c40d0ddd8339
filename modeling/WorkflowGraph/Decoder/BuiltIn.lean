/-
# The decoders of the library

One decoder for each kind of node. The node that a decoder builds has the kind
that the decoder announces.
-/

import WorkflowGraph.Decoder.Params

namespace WorkflowGraph.Decoder

/-- The same node with an output, if it has none. -/
def withDefaultOutput (name : String) (n : Node) : Node :=
  if n.outputs.isEmpty then { n with outputs := [⟨name, .string⟩] } else n

/-- A declared id, or the position of a branch or class without one. -/
def idOrIndex (id : Option String) (index : Nat) : String :=
  (id.filter fun s => !s.isEmpty).getD (Text.ofInt index)

/-- Decodes a start node. -/
def decodeStart (ctx : DecodeContext) (r : Record) : Except DecodeError Node :=
  .ok (ctx.node r .start)

/-- Decodes an end node. Inputs taken from a removed node are left out. -/
def decodeFinish (ctx : DecodeContext) (r : Record) : Except DecodeError Node := do
  let answer ← Params.read Params.finish r
  let n := ctx.node r (.finish answer)
  return { n with
    inputs := n.inputs.filter fun i =>
      match i.reference? with
      | some ref => !ctx.isRemoved ref.node
      | none => true }

/-- Decodes a node that calls a language model. -/
def decodeLlm (ctx : DecodeContext) (r : Record) : Except DecodeError Node := do
  let config ← Params.read Params.llm r
  return withDefaultOutput "text" (ctx.node r (.llm config))

/-- Decodes a node that runs code. -/
def decodeCode (ctx : DecodeContext) (r : Record) : Except DecodeError Node := do
  let config ← Params.read Params.code r
  return ctx.node r (.code config)

/-- The comparison that parameters describe. -/
def condition (ctx : DecodeContext) (p : Params.Operand) : Condition :=
  ⟨p.left.map fun pointer => ctx.capture pointer .any, p.operator, .ofJson p.right⟩

/-- The logical operator of a spelling: `or` in any letter case, and otherwise `and`. -/
def logicalOperator (spelling : Option String) : LogicalOperator :=
  match spelling with
  | some s => if Text.sameIgnoringCase s "or" then .or else .and
  | none => .and

/-- The branch that parameters describe. -/
def branchCase (ctx : DecodeContext) (index : Nat) (p : Params.Case) : BranchCase :=
  ⟨idOrIndex p.id index, logicalOperator p.logicalOperator, p.conditions.map (condition ctx)⟩

/-- Decodes a condition node. -/
def decodeCondition (ctx : DecodeContext) (r : Record) : Except DecodeError Node := do
  let cases ← Params.read Params.condition r
  return ctx.node r (.condition (cases.mapIdx (branchCase ctx)))

/-- The class that parameters describe. Every class keeps its place, also one
without a name, because handles count the classes. -/
def classLabel (index : Nat) (p : Params.ClassEntry) : ClassLabel :=
  ⟨idOrIndex p.id index, p.name⟩

/-- Decodes a classifier. -/
def decodeClassifier (ctx : DecodeContext) (r : Record) : Except DecodeError Node := do
  let p ← Params.read Params.classifier r
  return withDefaultOutput "class_name" <| ctx.node r <| .classifier
    ⟨p.model, p.query.map fun pointer => ctx.capture pointer .string, p.instruction,
      p.classes.mapIdx classLabel⟩

/-- The type of the output of an iteration: the one its parameters name, or that of
its first declared output, or a list. -/
def iterationOutputType (p : Params.Iteration) (r : Record) : VarType :=
  ((p.outputType.orElse fun _ => r.outputs.head?.bind RecordOutput.type).map VarType.parse).getD
    .array

/-- Decodes an iteration, without its body. Its only output has a fixed name; the
declared names are known to the resolver. -/
def decodeIteration (ctx : DecodeContext) (r : Record) : Except DecodeError Node := do
  let p ← Params.read Params.iteration r
  let type := iterationOutputType p r
  let loop : Loop :=
    ⟨p.iterator.map fun pointer => ctx.capture pointer .array,
      p.output.map fun pointer => ctx.capture pointer type.element, type, p.parallel, [], .empty⟩
  return { ctx.node r (.iteration loop) with outputs := [⟨iterationOutput, type⟩] }

/-- The decoder for a kind of node. -/
def builtIn : NodeKind → Decoder
  | .start => ⟨.start, decodeStart⟩
  | .finish => ⟨.finish, decodeFinish⟩
  | .llm => ⟨.llm, decodeLlm⟩
  | .code => ⟨.code, decodeCode⟩
  | .condition => ⟨.condition, decodeCondition⟩
  | .classifier => ⟨.classifier, decodeClassifier⟩
  | .iteration => ⟨.iteration, decodeIteration⟩

end WorkflowGraph.Decoder
