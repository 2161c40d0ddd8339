/-
# Reading artifacts back

The binary form of an artifact keeps everything and says by itself where it ends. The
only condition is the one that memory imposes on every value: texts and lists have a
length, and branches a position, that 64 bits can hold. Readers of nested values are
given a bound on the depth; the bound that they get in practice, the number of bytes,
always leaves room for what was written.
-/

import WorkflowGraph.Artifact.Saved
import WorkflowGraph.Proofs.CodecLaws

namespace WorkflowGraph

open Codec

/-! ## What can be written -/

namespace Codec

mutual
/-- Every length in the literal can be written. -/
def LiteralFits : Literal → Prop
  | .null | .bool _ | .number _ => True
  | .string s => TextFits s
  | .array items => items.length < 2 ^ 64 ∧ LiteralsFit items
  | .object fields => fields.length < 2 ^ 64 ∧ LiteralFieldsFit fields

/-- Every length in the literals of a list can be written. -/
def LiteralsFit : List Literal → Prop
  | [] => True
  | l :: ls => LiteralFits l ∧ LiteralsFit ls

/-- Every length in the fields of a list can be written. -/
def LiteralFieldsFit : List (String × Literal) → Prop
  | [] => True
  | (k, l) :: fs => TextFits k ∧ LiteralFits l ∧ LiteralFieldsFit fs
end

end Codec

/-- The position and the spelling of the handle can be written. -/
def Handle.Fits : Handle → Prop
  | .default | .fallthrough => True
  | .case index => index < 2 ^ 64
  | .raw spelling => TextFits spelling

/-- Every text of the edge can be written. -/
structure Edge.Fits (e : Edge) : Prop where
  id : TextFits e.id
  source : TextFits e.source
  sourceHandle : e.sourceHandle.Fits
  target : TextFits e.target
  targetHandle : TextFits e.targetHandle

/-- Every text of the reference can be written. -/
structure Reference.Fits (r : Reference) : Prop where
  node : TextFits r.node
  output : TextFits r.output

/-- Every length in the value can be written. -/
def InputValue.Fits : InputValue → Prop
  | .reference r => r.Fits
  | .literal l => LiteralFits l

/-- Every length in the input can be written. -/
structure Input.Fits (i : Input) : Prop where
  name : TextFits i.name
  value : i.value.Fits

/-- The description can be written. -/
def Presentation.Fits (p : Presentation) : Prop :=
  ∀ s ∈ p.description, TextFits s

/-- Every text of the model can be written. -/
structure Model.Fits (m : Model) : Prop where
  provider : ∀ s ∈ m.provider, TextFits s
  name : TextFits m.name

/-- Every text of the settings can be written. -/
structure LlmConfig.Fits (c : LlmConfig) : Prop where
  model : c.model.Fits
  systemPrompt : ∀ s ∈ c.systemPrompt, TextFits s
  prompt : TextFits c.prompt

/-- The name of the language can be written. -/
def CodeLanguage.Fits : CodeLanguage → Prop
  | .python3 | .javaScript => True
  | .other name => TextFits name

/-- Every text of the settings can be written. -/
structure CodeConfig.Fits (c : CodeConfig) : Prop where
  language : c.language.Fits
  code : TextFits c.code

/-- Every length in the comparison can be written. -/
structure Condition.Fits (c : Condition) : Prop where
  left : ∀ r ∈ c.left, r.Fits
  operator : TextFits c.operator
  right : LiteralFits c.right

/-- Every length in the branch can be written. -/
structure BranchCase.Fits (c : BranchCase) : Prop where
  id : TextFits c.id
  conditions : ListFits Condition.Fits c.conditions

/-- Every text of the class can be written. -/
structure ClassLabel.Fits (c : ClassLabel) : Prop where
  id : TextFits c.id
  name : TextFits c.name

/-- Every length in the settings can be written. -/
structure ClassifierConfig.Fits (c : ClassifierConfig) : Prop where
  model : c.model.Fits
  query : ∀ r ∈ c.query, r.Fits
  instruction : ∀ s ∈ c.instruction, TextFits s
  classes : ListFits ClassLabel.Fits c.classes

mutual
/-- Every length in the graph can be written. -/
def Graph.Fits : Graph → Prop
  | ⟨nodes, edges⟩ => nodes.length < 2 ^ 64 ∧ NodesFit nodes ∧ ListFits Edge.Fits edges

/-- Every length in the nodes of a list can be written. -/
def NodesFit : List Node → Prop
  | [] => True
  | n :: ns => n.Fits ∧ NodesFit ns

/-- Every length in the node can be written. -/
def Node.Fits : Node → Prop
  | ⟨id, _, title, config, inputs, outputs, presentation⟩ =>
    TextFits id ∧ TextFits title ∧ config.Fits ∧ ListFits Input.Fits inputs
      ∧ ListFits (fun o : Output => TextFits o.name) outputs ∧ presentation.Fits

/-- Every length in the settings of a node can be written. -/
def Config.Fits : Config → Prop
  | .start => True
  | .finish answer => ∀ s ∈ answer, TextFits s
  | .llm c => c.Fits
  | .code c => c.Fits
  | .condition cases => ListFits BranchCase.Fits cases
  | .classifier c => c.Fits
  | .iteration loop => loop.Fits

/-- Every length in the settings of an iteration can be written. -/
def Loop.Fits : Loop → Prop
  | ⟨iterator, output, _, _, entryEdges, body⟩ =>
    (∀ r ∈ iterator, r.Fits) ∧ (∀ r ∈ output, r.Fits) ∧ ListFits Edge.Fits entryEdges ∧ body.Fits
end

/-- Every text and list of the artifact has a length that 64 bits can hold. -/
def Artifact.Fits (a : Artifact) : Prop :=
  a.graph.Fits

namespace Codec

/-! ## Literals -/

mutual
theorem reads_literalWithin (l : Literal) (h : LiteralFits l) (n : Nat)
    (room : (encodeLiteral l).length ≤ n) :
    Reads (decodeLiteralWithin n) (encodeLiteral l) l := by
  cases n with
  | zero =>
    -- Every literal begins with its position, so it has at least one byte.
    have short : (encodeLiteral l).length = 0 := Nat.le_zero.mp room
    cases l <;> simp [encodeLiteral, encodeNat] at short
  | succ n =>
    cases l with
    | null => exact Reads.last (reads_index (by decide)) (reads_pure _)
    | bool b => exact Reads.bind (reads_index (by decide)) ((reads_bool b).map _)
    | number x => exact Reads.bind (reads_index (by decide)) ((reads_float x).map _)
    | string s => exact Reads.bind (reads_index (by decide)) ((reads_text h).map _)
    | array items =>
      have position := length_encodeNat_pos 4
      rw [encodeLiteral, List.append_assoc] at room ⊢
      have items := reads_literalsWithin items h.2 n (by
        simp only [List.length_append] at room
        omega)
      exact Reads.bind (reads_index (by decide)) (((reads_length h.1).bind items).map _)
    | object fields =>
      have position := length_encodeNat_pos 5
      rw [encodeLiteral, List.append_assoc] at room ⊢
      have fields := reads_literalFieldsWithin fields h.2 n (by
        simp only [List.length_append] at room
        omega)
      exact Reads.bind (reads_index (by decide)) (((reads_length h.1).bind fields).map _)

theorem reads_literalsWithin (ls : List Literal) (h : LiteralsFit ls) (n : Nat)
    (room : (encodeLiterals ls).length ≤ n) :
    Reads (decodeMany (decodeLiteralWithin n) ls.length) (encodeLiterals ls) ls := by
  cases ls with
  | nil => exact reads_pure []
  | cons l ls =>
    rw [encodeLiterals, List.length_append] at room
    have first := reads_literalWithin l h.1 n (by omega)
    have others := reads_literalsWithin ls h.2 n (by omega)
    exact first.bind (others.map _)

theorem reads_literalFieldsWithin (fs : List (String × Literal)) (h : LiteralFieldsFit fs) (n : Nat)
    (room : (encodeLiteralFields fs).length ≤ n) :
    Reads (decodeMany (do
        let k ← decodeText
        let l ← decodeLiteralWithin n
        return (k, l)) fs.length) (encodeLiteralFields fs) fs := by
  cases fs with
  | nil => exact reads_pure []
  | cons f fs =>
    obtain ⟨k, l⟩ := f
    rw [encodeLiteralFields, List.length_append, List.length_append] at room
    have value := reads_literalWithin l h.2.1 n (by omega)
    have others := reads_literalFieldsWithin fs h.2.2 n (by omega)
    exact ((reads_text h.1).bind (value.map (k, ·))).bind (others.map _)
end

theorem reads_literal {l : Literal} (h : LiteralFits l) :
    Reads decodeLiteral (encodeLiteral l) l := by
  intro tail
  refine reads_literalWithin l h _ ?_ tail
  rw [List.length_append]
  omega

/-! ## Records -/

theorem VarType.mem_all (t : VarType) : t ∈ VarType.all := by
  cases t <;> decide

theorem NodeKind.mem_all (k : NodeKind) : k ∈ NodeKind.all := by
  cases k <;> decide

theorem Platform.mem_all (p : Platform) : p ∈ Platform.all := by
  cases p <;> decide

theorem reads_varType (t : VarType) : Reads decodeVarType (encodeVarType t) t :=
  reads_among (by decide) (VarType.mem_all t)

theorem reads_nodeKind (k : NodeKind) : Reads decodeNodeKind (encodeNodeKind k) k :=
  reads_among (by decide) (NodeKind.mem_all k)

theorem reads_platform (p : Platform) :
    Reads (decodeAmong Platform.all) (encodeAmong Platform.all p) p :=
  reads_among (by decide) (Platform.mem_all p)

theorem reads_edgeKind (k : EdgeKind) :
    Reads (decodeAmong edgeKinds) (encodeAmong edgeKinds k) k :=
  reads_among (by decide) (by cases k <;> decide)

theorem reads_logicalOperator (o : LogicalOperator) :
    Reads (decodeAmong logicalOperators) (encodeAmong logicalOperators o) o :=
  reads_among (by decide) (by cases o <;> decide)

theorem reads_handle {h : Handle} (fits : h.Fits) : Reads decodeHandle (encodeHandle h) h := by
  cases h with
  | default => exact Reads.last (reads_index (by decide)) (reads_pure _)
  | case index => exact Reads.bind (reads_index (by decide)) ((reads_length fits).map _)
  | fallthrough => exact Reads.last (reads_index (by decide)) (reads_pure _)
  | raw spelling => exact Reads.bind (reads_index (by decide)) ((reads_text fits).map _)

theorem reads_edge {e : Edge} (h : e.Fits) : Reads decodeEdge (encodeEdge e) e := by
  simp only [encodeEdge, List.append_assoc]
  refine (reads_text h.id).bind ?_
  refine (reads_text h.source).bind ?_
  refine (reads_handle h.sourceHandle).bind ?_
  refine (reads_text h.target).bind ?_
  refine (reads_text h.targetHandle).bind ?_
  exact (reads_edgeKind e.kind).map _

theorem reads_reference {r : Reference} (h : r.Fits) :
    Reads decodeReference (encodeReference r) r := by
  simp only [encodeReference, List.append_assoc]
  refine (reads_text h.node).bind ?_
  refine (reads_text h.output).bind ?_
  exact (reads_varType r.type).map _

theorem reads_inputValue {v : InputValue} (h : v.Fits) :
    Reads decodeInputValue (encodeInputValue v) v := by
  cases v with
  | reference r => exact Reads.bind (reads_index (by decide)) ((reads_reference h).map _)
  | literal l => exact Reads.bind (reads_index (by decide)) ((reads_literal h).map _)

theorem reads_input {i : Input} (h : i.Fits) : Reads decodeInput (encodeInput i) i := by
  simp only [encodeInput, List.append_assoc]
  refine (reads_text h.name).bind ?_
  refine (reads_varType i.type).bind ?_
  exact (reads_inputValue h.value).map _

theorem reads_output {o : Output} (h : TextFits o.name) :
    Reads decodeOutput (encodeOutput o) o := by
  unfold encodeOutput
  refine (reads_text h).bind ?_
  exact (reads_varType o.type).map _

theorem reads_position (p : Position) : Reads decodePosition (encodePosition p) p := by
  unfold encodePosition
  refine (reads_float p.x).bind ?_
  exact (reads_float p.y).map _

theorem reads_presentation {p : Presentation} (h : p.Fits) :
    Reads decodePresentation (encodePresentation p) p := by
  unfold encodePresentation
  refine (reads_option fun q _ => reads_position q).bind ?_
  exact (reads_option fun s hs => reads_text (h s hs)).map _

theorem reads_model {m : Model} (h : m.Fits) : Reads decodeModel (encodeModel m) m := by
  -- The limit is read as a number and put into 32 bits afterwards.
  have limit : Reads (decodeOption decodeIndex)
      (encodeOption (fun n : UInt32 => encodeNat n.toNat) m.maxTokens)
      (m.maxTokens.map UInt32.toNat) := by
    cases m.maxTokens with
    | none => exact (reads_bool false).last (reads_pure none)
    | some n => exact (reads_bool true).bind ((reads_index n.toNat_lt).map some)
  have back : (m.maxTokens.map UInt32.toNat).map UInt32.ofNat = m.maxTokens := by
    cases m.maxTokens with
    | none => rfl
    | some n => simp
  simp only [encodeModel, List.append_assoc]
  refine (reads_option fun s hs => reads_text (h.provider s hs)).bind ?_
  refine (reads_text h.name).bind ?_
  refine (reads_option fun x _ => reads_float x).bind ?_
  refine limit.last ?_
  rw [back]
  exact reads_pure m

theorem reads_language {l : CodeLanguage} (h : l.Fits) :
    Reads decodeLanguage (encodeLanguage l) l := by
  cases l with
  | python3 => exact Reads.last (reads_index (by decide)) (reads_pure _)
  | javaScript => exact Reads.last (reads_index (by decide)) (reads_pure _)
  | other name => exact Reads.bind (reads_index (by decide)) ((reads_text h).map _)

theorem reads_condition {c : Condition} (h : c.Fits) :
    Reads decodeCondition (encodeCondition c) c := by
  simp only [encodeCondition, List.append_assoc]
  refine (reads_option fun r hr => reads_reference (h.left r hr)).bind ?_
  refine (reads_text h.operator).bind ?_
  exact (reads_literal h.right).map _

theorem reads_branchCase {c : BranchCase} (h : c.Fits) :
    Reads decodeBranchCase (encodeBranchCase c) c := by
  simp only [encodeBranchCase, List.append_assoc]
  refine (reads_text h.id).bind ?_
  refine (reads_logicalOperator c.logicalOperator).bind ?_
  exact (reads_list h.conditions fun _ => reads_condition).map _

theorem reads_classLabel {c : ClassLabel} (h : c.Fits) :
    Reads decodeClassLabel (encodeClassLabel c) c := by
  unfold encodeClassLabel
  refine (reads_text h.id).bind ?_
  exact (reads_text h.name).map _

theorem reads_classifier {c : ClassifierConfig} (h : c.Fits) :
    Reads decodeClassifier (encodeClassifier c) c := by
  simp only [encodeClassifier, List.append_assoc]
  refine (reads_model h.model).bind ?_
  refine (reads_option fun r hr => reads_reference (h.query r hr)).bind ?_
  refine (reads_option fun s hs => reads_text (h.instruction s hs)).bind ?_
  exact (reads_list h.classes fun _ => reads_classLabel).map _

theorem reads_llm {c : LlmConfig} (h : c.Fits) : Reads decodeLlm (encodeLlm c) c := by
  simp only [encodeLlm, List.append_assoc]
  refine (reads_model h.model).bind ?_
  refine (reads_option fun s hs => reads_text (h.systemPrompt s hs)).bind ?_
  exact (reads_text h.prompt).map _

theorem reads_code {c : CodeConfig} (h : c.Fits) : Reads decodeCode (encodeCode c) c := by
  unfold encodeCode
  refine (reads_language h.language).bind ?_
  exact (reads_text h.code).map _

/-! ## Graphs -/

mutual
theorem reads_graphWithin (g : Graph) (h : g.Fits) (n : Nat) (room : (encodeGraph g).length ≤ n) :
    Reads (decodeGraphWithin n) (encodeGraph g) g := by
  obtain ⟨nodes, edges⟩ := g
  have count := length_encodeNat_pos nodes.length
  rw [encodeGraph] at room ⊢
  simp only [List.length_append] at room
  cases n with
  | zero => omega
  | succ n =>
    have nodes := reads_nodesWithin nodes h.2.1 n (by omega)
    refine ((reads_length h.1).bind nodes).bind ?_
    exact (reads_list h.2.2 fun _ => reads_edge).map _

theorem reads_nodesWithin (ns : List Node) (h : NodesFit ns) (n : Nat)
    (room : (encodeNodes ns).length ≤ n) :
    Reads (decodeMany (decodeNode (decodeGraphWithin n)) ns.length) (encodeNodes ns) ns := by
  cases ns with
  | nil => exact reads_pure []
  | cons node ns =>
    rw [encodeNodes, List.length_append] at room
    have first := reads_nodeWithin node h.1 n (by omega)
    have others := reads_nodesWithin ns h.2 n (by omega)
    exact first.bind (others.map _)

theorem reads_nodeWithin (node : Node) (h : node.Fits) (n : Nat)
    (room : (encodeNode node).length ≤ n) :
    Reads (decodeNode (decodeGraphWithin n)) (encodeNode node) node := by
  obtain ⟨id, kind, title, config, inputs, outputs, presentation⟩ := node
  obtain ⟨hid, htitle, hconfig, hinputs, houtputs, hpresentation⟩ := h
  rw [encodeNode] at room
  simp only [List.length_append] at room
  simp only [encodeNode, List.append_assoc]
  refine (reads_text hid).bind ?_
  refine (reads_nodeKind kind).bind ?_
  refine (reads_text htitle).bind ?_
  refine (reads_configWithin config hconfig n (by omega)).bind ?_
  refine (reads_list hinputs fun _ => reads_input).bind ?_
  refine (reads_list houtputs fun _ => reads_output).bind ?_
  exact (reads_presentation hpresentation).map _

theorem reads_configWithin (c : Config) (h : c.Fits) (n : Nat)
    (room : (encodeConfig c).length ≤ n) :
    Reads (decodeConfig (decodeGraphWithin n)) (encodeConfig c) c := by
  cases c with
  | start => exact Reads.last (reads_index (by decide)) (reads_pure _)
  | finish answer =>
    have text := reads_option fun s hs => reads_text (h s hs)
    exact Reads.bind (reads_index (by decide)) (text.map _)
  | llm c => exact Reads.bind (reads_index (by decide)) ((reads_llm h).map _)
  | code c => exact Reads.bind (reads_index (by decide)) ((reads_code h).map _)
  | condition cases =>
    have branches := reads_list h fun _ => reads_branchCase
    exact Reads.bind (reads_index (by decide)) (branches.map _)
  | classifier c => exact Reads.bind (reads_index (by decide)) ((reads_classifier h).map _)
  | iteration loop =>
    rw [encodeConfig, List.length_append] at room
    have loop := reads_loopWithin loop h n (by omega)
    exact Reads.bind (reads_index (by decide)) (loop.map _)

theorem reads_loopWithin (loop : Loop) (h : loop.Fits) (n : Nat)
    (room : (encodeLoop loop).length ≤ n) :
    Reads (decodeLoop (decodeGraphWithin n)) (encodeLoop loop) loop := by
  obtain ⟨iterator, output, outputType, parallel, entryEdges, body⟩ := loop
  obtain ⟨hiterator, houtput, hedges, hbody⟩ := h
  rw [encodeLoop] at room
  simp only [List.length_append] at room
  simp only [encodeLoop, List.append_assoc]
  refine (reads_option fun r hr => reads_reference (hiterator r hr)).bind ?_
  refine (reads_option fun r hr => reads_reference (houtput r hr)).bind ?_
  refine (reads_varType outputType).bind ?_
  refine (reads_bool parallel).bind ?_
  refine (reads_list hedges fun _ => reads_edge).bind ?_
  exact (reads_graphWithin body hbody n (by omega)).map _
end

theorem reads_graph {g : Graph} (h : g.Fits) : Reads decodeGraph (encodeGraph g) g := by
  intro tail
  refine reads_graphWithin g h _ ?_ tail
  rw [List.length_append]
  omega

end Codec

/-! ## Artifacts -/

namespace Artifact

/-- Reads an artifact and gives back the bytes after it. -/
def decoder : Decode Artifact := do
  let source ← decodeAmong Platform.all
  let graph ← decodeGraph
  return ⟨source, graph⟩

theorem ofBytes?_eq (bytes : Bytes) : ofBytes? bytes = (decoder bytes).map Prod.fst := rfl

theorem reads_toBytes {a : Artifact} (h : a.Fits) : Reads decoder a.toBytes a := by
  unfold toBytes
  refine (reads_platform a.source).bind ?_
  exact (reads_graph h).map _

/-- What is written is read back, bit for bit and whatever comes after it, so no two
artifacts are written as the same bytes. -/
theorem decode_toBytes_append {a : Artifact} (h : a.Fits) :
    (∀ tail, decode (a.toBytes ++ tail) = .ok a) ∧
      ∀ b : Artifact, b.Fits → a.toBytes = b.toBytes → a = b := by
  have back {a : Artifact} (h : a.Fits) (tail : Bytes) : decode (a.toBytes ++ tail) = .ok a := by
    rw [decode, ofBytes?_eq, reads_toBytes h tail]
    rfl
  refine ⟨back h, fun b hb same => ?_⟩
  have first : decode (a.toBytes ++ []) = .ok a := back h []
  have second : decode (b.toBytes ++ []) = .ok b := back hb []
  rw [same, second] at first
  exact (Except.ok.inj first).symm

/-- Calls a language model, with a temperature that is not a number and a negative zero
among its inputs. -/
def askNode : Node where
  id := "ask"
  kind := .llm
  title := "Ask"
  config := .llm ⟨⟨none, "m", some ⟨0x7ff8000000000001⟩, some 4096⟩, none, "é"⟩
  inputs := [⟨"x", .any, .literal (.array [.null, .object [("k", .number ⟨0x8000000000000000⟩)]])⟩]
  outputs := []
  presentation := ⟨none, none⟩

theorem fits_askNode : askNode.Fits := by
  have config : askNode.config.Fits :=
    ⟨⟨fun _ h => absurd h (by simp), by decide⟩, fun _ h => absurd h (by simp), by decide⟩
  have object : LiteralFits (.object [("k", .number ⟨0x8000000000000000⟩)]) :=
    ⟨by decide, by decide, trivial, trivial⟩
  have input : ListFits Input.Fits askNode.inputs :=
    listFits_singleton ⟨by decide, by decide, trivial, object, trivial⟩
  exact ⟨by decide, by decide, config, input, listFits_nil _, fun _ h => absurd h (by simp)⟩

/-- A loop around a node, and an edge that leaves it on the last branch there can be. -/
def loopOverModel : Artifact where
  source := .coze
  graph :=
    ⟨[.ofConfig "each" "Each" (.iteration ⟨none, none, .array, false, [], ⟨[askNode], []⟩⟩)],
      [⟨"e", "each", .case 0xffffffffffffffff, "each", "target", .control⟩]⟩

theorem fits_loopOverModel : loopOverModel.Fits := by
  have body : Graph.Fits ⟨[askNode], []⟩ :=
    ⟨by decide, ⟨fits_askNode, trivial⟩, listFits_nil _⟩
  have loop : Loop.Fits ⟨none, none, .array, false, [], ⟨[askNode], []⟩⟩ :=
    ⟨fun _ h => absurd h (by simp), fun _ h => absurd h (by simp), listFits_nil _, body⟩
  have each : Node.Fits (.ofConfig "each" "Each"
      (.iteration ⟨none, none, .array, false, [], ⟨[askNode], []⟩⟩)) :=
    ⟨by decide, by decide, loop, listFits_nil _, listFits_nil _, fun _ h => absurd h (by simp)⟩
  have last : (Handle.case 0xffffffffffffffff).Fits := by
    unfold Handle.Fits
    decide
  exact ⟨by decide, ⟨each, trivial⟩,
    listFits_singleton ⟨by decide, by decide, last, by decide, by decide⟩⟩

theorem decode_toBytes_loopOverModel :
    loopOverModel.Fits ∧ (∀ tail, decode (loopOverModel.toBytes ++ tail) = .ok loopOverModel) ∧
      ∀ b : Artifact, b.Fits → loopOverModel.toBytes = b.toBytes → loopOverModel = b :=
  ⟨fits_loopOverModel, decode_toBytes_append fits_loopOverModel⟩

end Artifact

end WorkflowGraph
