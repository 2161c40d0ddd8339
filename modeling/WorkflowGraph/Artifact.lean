/-
# Artifacts

A converted graph together with the platform that it comes from, in a binary form.
The fields of every record follow one another in declaration order, and an
alternative is preceded by its position among the alternatives of its type.
-/

import WorkflowGraph.Artifact.Codec
import WorkflowGraph.Graph
import WorkflowGraph.Platform

namespace WorkflowGraph

open Codec

/-- A converted graph with the platform of its document. -/
structure Artifact where
  source : Platform
  graph : Graph
  deriving Inhabited

namespace Codec

mutual
/-- The bytes of a literal. -/
def encodeLiteral : Literal → Bytes
  | .null => encodeNat 0
  | .bool b => encodeNat 1 ++ encodeBool b
  | .number x => encodeNat 2 ++ encodeFloat x
  | .string s => encodeNat 3 ++ encodeText s
  | .array items => encodeNat 4 ++ encodeNat items.length ++ encodeLiterals items
  | .object fields => encodeNat 5 ++ encodeNat fields.length ++ encodeLiteralFields fields

/-- The bytes of the literals of a list. -/
def encodeLiterals : List Literal → Bytes
  | [] => []
  | l :: ls => encodeLiteral l ++ encodeLiterals ls

/-- The bytes of the fields of a list. -/
def encodeLiteralFields : List (String × Literal) → Bytes
  | [] => []
  | (k, l) :: fs => encodeText k ++ encodeLiteral l ++ encodeLiteralFields fs
end

/-- Reads a literal with at most the given number of levels. -/
def decodeLiteralWithin : Nat → Decode Literal
  | 0 => fail
  | n + 1 => do
    match ← decodeIndex with
    | 0 => return .null
    | 1 => return .bool (← decodeBool)
    | 2 => return .number (← decodeFloat)
    | 3 => return .string (← decodeText)
    | 4 => return .array (← decodeList (decodeLiteralWithin n))
    | 5 => return .object (← decodeList do
        let k ← decodeText
        let l ← decodeLiteralWithin n
        return (k, l))
    | _ => fail

/-- Reads a literal. Every level takes at least one byte. -/
def decodeLiteral : Decode Literal :=
  fun bytes => decodeLiteralWithin bytes.length bytes

/-- The bytes of a variable type. -/
def encodeVarType (t : VarType) : Bytes :=
  encodeAmong VarType.all t

/-- Reads a variable type. -/
def decodeVarType : Decode VarType :=
  decodeAmong VarType.all

/-- The bytes of a node kind. -/
def encodeNodeKind (k : NodeKind) : Bytes :=
  encodeAmong NodeKind.all k

/-- Reads a node kind. -/
def decodeNodeKind : Decode NodeKind :=
  decodeAmong NodeKind.all

/-- The edge kinds in the order of their positions. -/
def edgeKinds : List EdgeKind :=
  [.control, .iterationStart]

/-- The logical operators in the order of their positions. -/
def logicalOperators : List LogicalOperator :=
  [.and, .or]

/-- The bytes of a handle. -/
def encodeHandle : Handle → Bytes
  | .default => encodeNat 0
  | .case index => encodeNat 1 ++ encodeNat index
  | .fallthrough => encodeNat 2
  | .raw spelling => encodeNat 3 ++ encodeText spelling

/-- Reads a handle. -/
def decodeHandle : Decode Handle := do
  match ← decodeIndex with
  | 0 => return .default
  | 1 => return .case (← decodeLength)
  | 2 => return .fallthrough
  | 3 => return .raw (← decodeText)
  | _ => fail

/-- The bytes of an edge. -/
def encodeEdge (e : Edge) : Bytes :=
  encodeText e.id ++ encodeText e.source ++ encodeHandle e.sourceHandle ++ encodeText e.target
    ++ encodeText e.targetHandle ++ encodeAmong edgeKinds e.kind

/-- Reads an edge. -/
def decodeEdge : Decode Edge := do
  let id ← decodeText
  let source ← decodeText
  let sourceHandle ← decodeHandle
  let target ← decodeText
  let targetHandle ← decodeText
  let kind ← decodeAmong edgeKinds
  return ⟨id, source, sourceHandle, target, targetHandle, kind⟩

/-- The bytes of a reference. -/
def encodeReference (r : Reference) : Bytes :=
  encodeText r.node ++ encodeText r.output ++ encodeVarType r.type

/-- Reads a reference. -/
def decodeReference : Decode Reference := do
  let node ← decodeText
  let output ← decodeText
  let type ← decodeVarType
  return ⟨node, output, type⟩

/-- The bytes of the value of an input. -/
def encodeInputValue : InputValue → Bytes
  | .reference r => encodeNat 0 ++ encodeReference r
  | .literal l => encodeNat 1 ++ encodeLiteral l

/-- Reads the value of an input. -/
def decodeInputValue : Decode InputValue := do
  match ← decodeIndex with
  | 0 => return .reference (← decodeReference)
  | 1 => return .literal (← decodeLiteral)
  | _ => fail

/-- The bytes of an input. -/
def encodeInput (i : Input) : Bytes :=
  encodeText i.name ++ encodeVarType i.type ++ encodeInputValue i.value

/-- Reads an input. -/
def decodeInput : Decode Input := do
  let name ← decodeText
  let type ← decodeVarType
  let value ← decodeInputValue
  return ⟨name, type, value⟩

/-- The bytes of an output. -/
def encodeOutput (o : Output) : Bytes :=
  encodeText o.name ++ encodeVarType o.type

/-- Reads an output. -/
def decodeOutput : Decode Output := do
  let name ← decodeText
  let type ← decodeVarType
  return ⟨name, type⟩

/-- The bytes of a position. -/
def encodePosition (p : Position) : Bytes :=
  encodeFloat p.x ++ encodeFloat p.y

/-- Reads a position. -/
def decodePosition : Decode Position := do
  let x ← decodeFloat
  let y ← decodeFloat
  return ⟨x, y⟩

/-- The bytes of a presentation. -/
def encodePresentation (p : Presentation) : Bytes :=
  encodeOption encodePosition p.position ++ encodeOption encodeText p.description

/-- Reads a presentation. -/
def decodePresentation : Decode Presentation := do
  let position ← decodeOption decodePosition
  let description ← decodeOption decodeText
  return ⟨position, description⟩

/-- The bytes of a model. -/
def encodeModel (m : Model) : Bytes :=
  encodeOption encodeText m.provider ++ encodeText m.name
    ++ encodeOption encodeFloat m.temperature
    ++ encodeOption (fun n => encodeNat n.toNat) m.maxTokens

/-- Reads a model. -/
def decodeModel : Decode Model := do
  let provider ← decodeOption decodeText
  let name ← decodeText
  let temperature ← decodeOption decodeFloat
  let maxTokens ← decodeOption decodeIndex
  return ⟨provider, name, temperature, maxTokens.map UInt32.ofNat⟩

/-- The bytes of a language. -/
def encodeLanguage : CodeLanguage → Bytes
  | .python3 => encodeNat 0
  | .javaScript => encodeNat 1
  | .other name => encodeNat 2 ++ encodeText name

/-- Reads a language. -/
def decodeLanguage : Decode CodeLanguage := do
  match ← decodeIndex with
  | 0 => return .python3
  | 1 => return .javaScript
  | 2 => return .other (← decodeText)
  | _ => fail

/-- The bytes of a comparison. -/
def encodeCondition (c : Condition) : Bytes :=
  encodeOption encodeReference c.left ++ encodeText c.operator ++ encodeLiteral c.right

/-- Reads a comparison. -/
def decodeCondition : Decode Condition := do
  let left ← decodeOption decodeReference
  let operator ← decodeText
  let right ← decodeLiteral
  return ⟨left, operator, right⟩

/-- The bytes of a branch. -/
def encodeBranchCase (c : BranchCase) : Bytes :=
  encodeText c.id ++ encodeAmong logicalOperators c.logicalOperator
    ++ encodeList encodeCondition c.conditions

/-- Reads a branch. -/
def decodeBranchCase : Decode BranchCase := do
  let id ← decodeText
  let logicalOperator ← decodeAmong logicalOperators
  let conditions ← decodeList decodeCondition
  return ⟨id, logicalOperator, conditions⟩

/-- The bytes of a class. -/
def encodeClassLabel (c : ClassLabel) : Bytes :=
  encodeText c.id ++ encodeText c.name

/-- Reads a class. -/
def decodeClassLabel : Decode ClassLabel := do
  let id ← decodeText
  let name ← decodeText
  return ⟨id, name⟩

/-- The bytes of the settings of a classifier. -/
def encodeClassifier (c : ClassifierConfig) : Bytes :=
  encodeModel c.model ++ encodeOption encodeReference c.query
    ++ encodeOption encodeText c.instruction ++ encodeList encodeClassLabel c.classes

/-- Reads the settings of a classifier. -/
def decodeClassifier : Decode ClassifierConfig := do
  let model ← decodeModel
  let query ← decodeOption decodeReference
  let instruction ← decodeOption decodeText
  let classes ← decodeList decodeClassLabel
  return ⟨model, query, instruction, classes⟩

/-- The bytes of the settings of a node that calls a language model. -/
def encodeLlm (c : LlmConfig) : Bytes :=
  encodeModel c.model ++ encodeOption encodeText c.systemPrompt ++ encodeText c.prompt

/-- Reads the settings of a node that calls a language model. -/
def decodeLlm : Decode LlmConfig := do
  let model ← decodeModel
  let systemPrompt ← decodeOption decodeText
  let prompt ← decodeText
  return ⟨model, systemPrompt, prompt⟩

/-- The bytes of the settings of a node that runs code. -/
def encodeCode (c : CodeConfig) : Bytes :=
  encodeLanguage c.language ++ encodeText c.code

/-- Reads the settings of a node that runs code. -/
def decodeCode : Decode CodeConfig := do
  let language ← decodeLanguage
  let code ← decodeText
  return ⟨language, code⟩

mutual
/-- The bytes of a graph. -/
def encodeGraph : Graph → Bytes
  | ⟨nodes, edges⟩ => encodeNat nodes.length ++ encodeNodes nodes ++ encodeList encodeEdge edges

/-- The bytes of the nodes of a list. -/
def encodeNodes : List Node → Bytes
  | [] => []
  | n :: ns => encodeNode n ++ encodeNodes ns

/-- The bytes of a node. -/
def encodeNode : Node → Bytes
  | ⟨id, kind, title, config, inputs, outputs, presentation⟩ =>
    encodeText id ++ encodeNodeKind kind ++ encodeText title ++ encodeConfig config
      ++ encodeList encodeInput inputs ++ encodeList encodeOutput outputs
      ++ encodePresentation presentation

/-- The bytes of the settings of a node. -/
def encodeConfig : Config → Bytes
  | .start => encodeNat 0
  | .finish answer => encodeNat 1 ++ encodeOption encodeText answer
  | .llm c => encodeNat 2 ++ encodeLlm c
  | .code c => encodeNat 3 ++ encodeCode c
  | .condition cases => encodeNat 4 ++ encodeList encodeBranchCase cases
  | .classifier c => encodeNat 5 ++ encodeClassifier c
  | .iteration loop => encodeNat 6 ++ encodeLoop loop

/-- The bytes of the settings of an iteration. -/
def encodeLoop : Loop → Bytes
  | ⟨iterator, output, outputType, parallel, entryEdges, body⟩ =>
    encodeOption encodeReference iterator ++ encodeOption encodeReference output
      ++ encodeVarType outputType ++ encodeBool parallel ++ encodeList encodeEdge entryEdges
      ++ encodeGraph body
end

/-- Reads the settings of an iteration, given how to read its body. -/
def decodeLoop (decodeBody : Decode Graph) : Decode Loop := do
  let iterator ← decodeOption decodeReference
  let output ← decodeOption decodeReference
  let outputType ← decodeVarType
  let parallel ← decodeBool
  let entryEdges ← decodeList decodeEdge
  let body ← decodeBody
  return ⟨iterator, output, outputType, parallel, entryEdges, body⟩

/-- Reads the settings of a node, given how to read a body. -/
def decodeConfig (decodeBody : Decode Graph) : Decode Config := do
  match ← decodeIndex with
  | 0 => return .start
  | 1 => return .finish (← decodeOption decodeText)
  | 2 => return .llm (← decodeLlm)
  | 3 => return .code (← decodeCode)
  | 4 => return .condition (← decodeList decodeBranchCase)
  | 5 => return .classifier (← decodeClassifier)
  | 6 => return .iteration (← decodeLoop decodeBody)
  | _ => fail

/-- Reads a node, given how to read a body. -/
def decodeNode (decodeBody : Decode Graph) : Decode Node := do
  let id ← decodeText
  let kind ← decodeNodeKind
  let title ← decodeText
  let config ← decodeConfig decodeBody
  let inputs ← decodeList decodeInput
  let outputs ← decodeList decodeOutput
  let presentation ← decodePresentation
  return ⟨id, kind, title, config, inputs, outputs, presentation⟩

/-- Reads a graph with at most the given number of levels. -/
def decodeGraphWithin : Nat → Decode Graph
  | 0 => fail
  | n + 1 => do
    let nodes ← decodeList (decodeNode (decodeGraphWithin n))
    let edges ← decodeList decodeEdge
    return ⟨nodes, edges⟩

/-- Reads a graph. Every level takes at least one byte. -/
def decodeGraph : Decode Graph :=
  fun bytes => decodeGraphWithin bytes.length bytes

end Codec

namespace Artifact

/-- The binary form of an artifact. -/
def toBytes (a : Artifact) : Bytes :=
  encodeAmong Platform.all a.source ++ encodeGraph a.graph

/-- The artifact that bytes begin with; what follows it is ignored. -/
def ofBytes? (bytes : Bytes) : Option Artifact :=
  let decode : Decode Artifact := do
    let source ← decodeAmong Platform.all
    let graph ← decodeGraph
    return ⟨source, graph⟩
  (decode bytes).map Prod.fst

end Artifact

end WorkflowGraph
