/-
# Reading graphs and documents back from JSON

Nothing is lost on the way to JSON and back as long as JSON can say it. It cannot say
that a floating-point number is infinite or not a number, and it keeps the objects in the
parameters of a document as maps, without an order of their own. Everything else comes
back as it was: alternatives have names that no text in them can imitate, and what is
absent is written as null, which no reader of a value that may be absent takes for one.
-/

import WorkflowGraph.Proofs.JsonLayouts
import WorkflowGraph.Record.Json

namespace WorkflowGraph

/-! ## What can be written -/

mutual
/-- Every number in the literal is finite. -/
def Literal.isWritable : Literal → Bool
  | .number x => x.isFinite
  | .array items => Literal.itemsWritable items
  | .object fields => Literal.fieldsWritable fields
  | _ => true

/-- Every number in the literals of a list is finite. -/
def Literal.itemsWritable : List Literal → Bool
  | [] => true
  | l :: ls => l.isWritable && Literal.itemsWritable ls

/-- Every number in the fields of a list is finite. -/
def Literal.fieldsWritable : List (String × Literal) → Bool
  | [] => true
  | (_, l) :: fs => l.isWritable && Literal.fieldsWritable fs
end

/-- The position of the branch fits in 64 bits. -/
def Handle.isWritable : Handle → Bool
  | .case index => decide (index < 2 ^ 64)
  | _ => true

/-- The branch that the edge leaves by has a position that fits in 64 bits. -/
def Edge.isWritable (e : Edge) : Bool :=
  e.sourceHandle.isWritable

/-- Every number in the value is finite. -/
def InputValue.isWritable : InputValue → Bool
  | .reference _ => true
  | .literal l => l.isWritable

/-- Every number in the input is finite. -/
def Input.isWritable (i : Input) : Bool :=
  i.value.isWritable

/-- Both coordinates are finite. -/
def Position.isWritable (p : Position) : Bool :=
  p.x.isFinite && p.y.isFinite

/-- The position is finite. -/
def Presentation.isWritable (p : Presentation) : Bool :=
  p.position.all Position.isWritable

/-- The temperature is finite. -/
def Model.isWritable (m : Model) : Bool :=
  m.temperature.all Binary64.isFinite

/-- Every number in the comparison is finite. -/
def Condition.isWritable (c : Condition) : Bool :=
  c.right.isWritable

/-- Every number in the branch is finite. -/
def BranchCase.isWritable (c : BranchCase) : Bool :=
  c.conditions.all Condition.isWritable

mutual
/-- Every floating-point number in the graph, at any depth, is finite, and every position
of a branch fits in 64 bits. -/
def Graph.isWritable : Graph → Bool
  | ⟨nodes, edges⟩ => Node.allWritable nodes && edges.all Edge.isWritable

/-- Every number in the nodes of a list can be written. -/
def Node.allWritable : List Node → Bool
  | [] => true
  | n :: ns => n.isWritable && Node.allWritable ns

/-- Every number in the node can be written. -/
def Node.isWritable : Node → Bool
  | ⟨_, _, _, config, inputs, _, presentation⟩ =>
    config.isWritable && inputs.all Input.isWritable && presentation.isWritable

/-- Every number in the settings can be written. -/
def Config.isWritable : Config → Bool
  | .llm c => c.model.isWritable
  | .condition cases => cases.all BranchCase.isWritable
  | .classifier c => c.model.isWritable
  | .iteration loop => loop.isWritable
  | _ => true

/-- Every number in the settings of the iteration can be written. -/
def Loop.isWritable : Loop → Bool
  | ⟨_, _, _, _, entryEdges, body⟩ => entryEdges.all Edge.isWritable && body.isWritable
end

/-- A constant is a JSON value with its objects in order. -/
def RecordInput.isWritable (i : RecordInput) : Bool :=
  match i.value with
  | .pointer _ => true
  | .literal j => j.isOrdered

mutual
/-- The position is finite, and the free JSON values are in order, at any depth. -/
def Record.isWritable : Record → Bool
  | ⟨_, _, _, params, inputs, _, blocks, presentation⟩ =>
    (Json.obj params).isOrdered && inputs.all RecordInput.isWritable &&
      Blocks.optionWritable blocks && presentation.isWritable

/-- Every record of a body that may be absent can be written. -/
def Blocks.optionWritable : Option Blocks → Bool
  | none => true
  | some ⟨records, _⟩ => Record.allWritable records

/-- Every record of a list can be written. -/
def Record.allWritable : List Record → Bool
  | [] => true
  | r :: rs => r.isWritable && Record.allWritable rs
end

/-- Every position in the document is finite, and every free JSON value is in order. -/
def Document.isWritable (d : Document) : Bool :=
  Record.allWritable d.records &&
    d.sections.entries.all fun entry => Record.allWritable entry.2.records

namespace Json.Layout

variable {L : Layout}

/-! ## Literals -/

theorem itemsToJson_eq_map (items : List Literal) :
    Literal.itemsToJson items = items.map Literal.toJson :=
  eq_map_of_cons rfl (fun _ _ => rfl) items

theorem fieldsToJson_eq_map (fields : List (String × Literal)) :
    Literal.fieldsToJson fields = fields.map fun f => .arr [.str f.1, f.2.toJson] :=
  eq_map_of_cons rfl (fun _ _ => rfl) fields

theorem isWritable_of_mem_items {l : Literal} {items : List Literal}
    (h : Literal.itemsWritable items = true) (hl : l ∈ items) : l.isWritable = true :=
  holds_of_mem h hl fun _ _ => rfl

theorem isWritable_of_mem_fields {f : String × Literal} {fields : List (String × Literal)}
    (h : Literal.fieldsWritable fields = true) (hf : f ∈ fields) : f.2.isWritable = true :=
  holds_of_mem (g := fun f => f.2.isWritable) h hf fun _ _ => rfl

/-- A literal is read back by every reader that may descend as far as its notation is deep. -/
theorem restores_literalWithin (n : Nat) : ∀ l : Literal, l.isWritable = true →
    (L.lay l.toJson).depth ≤ n → L.Restores (Literal.readWithin n) l.toJson l := by
  induction n with
  | zero =>
    intro l _ hdepth
    exact absurd hdepth (Nat.not_le_of_lt (depth_pos _))
  | succ n ih =>
    intro l hl hdepth
    cases l with
    | null => exact restores_bare rfl
    | bool b => exact restores_tagged rfl ((L.restores_bool b).map _)
    | number x => exact restores_tagged rfl ((L.restores_float hl).map _)
    | string s => exact restores_tagged rfl ((L.restores_text s).map _)
    | array items =>
      have inner : ∀ l ∈ items, L.Restores (Literal.readWithin n) l.toJson l := by
        intro l hin
        refine ih l (isWritable_of_mem_items hl hin) ?_
        have hitem : l.toJson ∈ Literal.itemsToJson items := by
          rw [itemsToJson_eq_map]
          exact List.mem_map_of_mem hin
        have hlist := L.depth_item_lt hitem
        have htag := L.depth_tagged_lt "Array" (.arr (Literal.itemsToJson items))
        rw [Literal.toJson] at hdepth
        omega
      rw [Literal.toJson, itemsToJson_eq_map]
      exact restores_tagged rfl ((restores_list inner).map _)
    | object fields =>
      have inner : ∀ f ∈ fields, L.Restores (Reader.pair Reader.text (Literal.readWithin n))
          (.arr [.str f.1, f.2.toJson]) f := by
        intro f hin
        refine restores_pair (L.restores_text f.1) (ih f.2 (isWritable_of_mem_fields hl hin) ?_)
        have hfield : .arr [.str f.1, f.2.toJson] ∈ Literal.fieldsToJson fields := by
          rw [fieldsToJson_eq_map]
          exact List.mem_map_of_mem hin
        have hvalue : f.2.toJson ∈ [.str f.1, f.2.toJson] :=
          List.mem_cons_of_mem _ (List.mem_singleton.mpr rfl)
        have hpair := L.depth_item_lt hvalue
        have hlist := L.depth_item_lt hfield
        have htag := L.depth_tagged_lt "Object" (.arr (Literal.fieldsToJson fields))
        rw [Literal.toJson] at hdepth
        omega
      rw [Literal.toJson, fieldsToJson_eq_map]
      exact restores_tagged rfl ((restores_list inner).map _)

theorem restores_literal {l : Literal} (h : l.isWritable = true) :
    L.Restores Literal.read l.toJson l :=
  restores_literalWithin _ l h (Nat.le_refl _)

/-! ## Edges, references and the parts of nodes -/

theorem restores_varType (t : VarType) : L.Restores VarType.read (.str t.tag) t := by
  cases t <;> exact restores_bare rfl

theorem restores_nodeKind (k : NodeKind) : L.Restores NodeKind.read (.str k.tag) k := by
  cases k <;> exact restores_bare rfl

theorem restores_edgeKind (k : EdgeKind) : L.Restores EdgeKind.read (.str k.tag) k := by
  cases k <;> exact restores_bare rfl

theorem restores_logicalOperator (o : LogicalOperator) :
    L.Restores LogicalOperator.read (.str o.tag) o := by
  cases o <;> exact restores_bare rfl

theorem restores_handle {h : Handle} (writable : h.isWritable = true) :
    L.Restores Handle.read h.toJson h := by
  cases h with
  | default => exact restores_bare rfl
  | case index =>
    have small : index < 2 ^ 64 := of_decide_eq_true writable
    exact restores_tagged rfl ((L.restores_unsigned _ small).map _)
  | fallthrough => exact restores_bare rfl
  | raw spelling => exact restores_tagged rfl ((L.restores_text spelling).map _)

theorem restores_codeLanguage (l : CodeLanguage) : L.Restores CodeLanguage.read l.toJson l := by
  cases l with
  | python3 => exact restores_bare rfl
  | javaScript => exact restores_bare rfl
  | other name => exact restores_tagged rfl ((L.restores_text name).map _)

theorem restores_edge {e : Edge} (h : e.isWritable = true) : L.Restores Edge.read e.toJson e := by
  refine restores_fields
    (.cons ((L.restores_text e.id).stores ..) <|
     .cons ((L.restores_text e.source).stores ..) <|
     .cons ((restores_handle h).stores ..) <|
     .cons ((L.restores_text e.target).stores ..) <|
     .cons ((L.restores_text e.targetHandle).stores ..) <|
     .cons ((restores_edgeKind e.kind).stores ..) .nil)
    (by simp) (by simp [commute_iff]) rfl

theorem restores_reference (r : Reference) : L.Restores Reference.read r.toJson r := by
  refine restores_fields
    (.cons ((L.restores_text r.node).stores ..) <|
     .cons ((L.restores_text r.output).stores ..) <|
     .cons ((restores_varType r.type).stores ..) .nil)
    (by simp) (by simp [commute_iff]) rfl

theorem restores_reference? (r : Option Reference) :
    L.Restores (Reader.option Reference.read) (.ofOption Reference.toJson r) r :=
  restores_option (fun r _ => restores_reference r) nofun

theorem restores_inputValue {v : InputValue} (h : v.isWritable = true) :
    L.Restores InputValue.read v.toJson v := by
  cases v with
  | reference r => exact restores_tagged rfl ((restores_reference r).map _)
  | literal l => exact restores_tagged rfl ((restores_literal h).map _)

theorem restores_input {i : Input} (h : i.isWritable = true) :
    L.Restores Input.read i.toJson i := by
  refine restores_fields
    (.cons ((L.restores_text i.name).stores ..) <|
     .cons ((restores_varType i.type).stores ..) <|
     .cons ((restores_inputValue h).stores ..) .nil)
    (by simp) (by simp [commute_iff]) rfl

theorem restores_output (o : Output) : L.Restores Output.read o.toJson o := by
  refine restores_fields
    (.cons ((L.restores_text o.name).stores ..) <|
     .cons ((restores_varType o.type).stores ..) .nil)
    (by simp) (by simp [commute_iff]) rfl

theorem of_all_of_mem {α : Type} {p : α → Bool} {a? : Option α} (h : a?.all p = true) :
    ∀ a ∈ a?, p a = true := by
  cases a? with
  | none => nofun
  | some a => exact fun b hb => Option.mem_some.mp hb ▸ h

theorem restores_position {p : Position} (h : p.isWritable = true) :
    L.Restores Position.read p.toJson p := by
  obtain ⟨hx, hy⟩ := Bool.and_eq_true_iff.mp h
  refine restores_fields
    (.cons ((L.restores_float hx).stores ..) <|
     .cons ((L.restores_float hy).stores ..) .nil)
    (by simp) (by simp [commute_iff]) rfl

theorem restores_presentation {p : Presentation} (h : p.isWritable = true) :
    L.Restores Presentation.read p.toJson p := by
  have position : L.Restores (Reader.option Position.read)
      (.ofOption Position.toJson p.position) p.position :=
    restores_option (fun q hq => restores_position (of_all_of_mem h q hq)) nofun
  refine restores_fields
    (.cons (position.stores ..) <|
     .cons ((restores_text? p.description).stores ..) .nil)
    (by simp) (by simp [commute_iff]) rfl

theorem restores_model {m : Model} (h : m.isWritable = true) :
    L.Restores Model.read m.toJson m := by
  have temperature : L.Restores (Reader.option Reader.float)
      (.ofOption .ofFloat m.temperature) m.temperature :=
    restores_option (fun x hx => L.restores_float (of_all_of_mem h x hx)) nofun
  have maxTokens : L.Restores (Reader.option Reader.word32)
      (.ofOption (fun n => .nat n.toNat) m.maxTokens) (m.maxTokens.map UInt32.toNat) :=
    restores_option_map (fun n _ => L.restores_unsigned "u32" n.toNat_lt) nofun
  refine restores_fields
    (.cons ((restores_text? m.provider).stores ..) <|
     .cons ((L.restores_text m.name).stores ..) <|
     .cons (temperature.stores ..) <|
     .cons (maxTokens.stores ..) .nil)
    (by simp) (by simp [commute_iff]) ?_
  show { m with maxTokens := (m.maxTokens.map UInt32.toNat).map UInt32.ofNat } = m
  simp [Option.map_map, Function.comp_def]

theorem restores_llmConfig {c : LlmConfig} (h : c.model.isWritable = true) :
    L.Restores LlmConfig.read c.toJson c := by
  refine restores_fields
    (.cons ((restores_model h).stores ..) <|
     .cons ((restores_text? c.systemPrompt).stores ..) <|
     .cons ((L.restores_text c.prompt).stores ..) .nil)
    (by simp) (by simp [commute_iff]) rfl

theorem restores_codeConfig (c : CodeConfig) : L.Restores CodeConfig.read c.toJson c := by
  refine restores_fields
    (.cons ((restores_codeLanguage c.language).stores ..) <|
     .cons ((L.restores_text c.code).stores ..) .nil)
    (by simp) (by simp [commute_iff]) rfl

theorem restores_condition {c : Condition} (h : c.isWritable = true) :
    L.Restores Condition.read c.toJson c := by
  refine restores_fields
    (.cons ((restores_reference? c.left).stores ..) <|
     .cons ((L.restores_text c.operator).stores ..) <|
     .cons ((restores_literal h).stores ..) .nil)
    (by simp) (by simp [commute_iff]) rfl

theorem restores_branchCase {c : BranchCase} (h : c.isWritable = true) :
    L.Restores BranchCase.read c.toJson c := by
  have conditions := restores_list (L := L) fun d hd =>
    restores_condition (List.all_eq_true.mp h d hd)
  refine restores_fields
    (.cons ((L.restores_text c.id).stores ..) <|
     .cons ((restores_logicalOperator c.logicalOperator).stores ..) <|
     .cons (conditions.stores ..) .nil)
    (by simp) (by simp [commute_iff]) rfl

theorem restores_classLabel (c : ClassLabel) : L.Restores ClassLabel.read c.toJson c := by
  refine restores_fields
    (.cons ((L.restores_text c.id).stores ..) <|
     .cons ((L.restores_text c.name).stores ..) .nil)
    (by simp) (by simp [commute_iff]) rfl

theorem restores_classifierConfig {c : ClassifierConfig} (h : c.model.isWritable = true) :
    L.Restores ClassifierConfig.read c.toJson c := by
  have classes := restores_list (L := L) fun d (_ : d ∈ c.classes) => restores_classLabel d
  refine restores_fields
    (.cons ((restores_model h).stores ..) <|
     .cons ((restores_reference? c.query).stores ..) <|
     .cons ((restores_text? c.instruction).stores ..) <|
     .cons (classes.stores ..) .nil)
    (by simp) (by simp [commute_iff]) rfl

/-! ## Nodes and graphs

The readers of nodes and settings are given a reader of bodies. They find what was
written as soon as that reader finds the body, if there is one. -/

theorem listToJson_eq_map (nodes : List Node) : Node.listToJson nodes = nodes.map Node.toJson :=
  eq_map_of_cons rfl (fun _ _ => rfl) nodes

theorem isWritable_of_mem_nodes {n : Node} {nodes : List Node}
    (h : Node.allWritable nodes = true) (hn : n ∈ nodes) : n.isWritable = true :=
  holds_of_mem h hn fun _ _ => rfl

theorem restores_edges {edges : List Edge} (h : edges.all Edge.isWritable = true) :
    L.Restores (Reader.list Edge.read) (.ofList Edge.toJson edges) edges :=
  restores_list fun e he => restores_edge (List.all_eq_true.mp h e he)

theorem restores_loop {readBody : Reader Graph} {loop : Loop} (h : loop.isWritable = true)
    (body : L.Restores readBody loop.body.toJson loop.body) :
    L.Restores (Loop.reader readBody) loop.toJson loop := by
  obtain ⟨iterator, output, outputType, parallel, entryEdges, inner⟩ := loop
  obtain ⟨hedges, -⟩ := Bool.and_eq_true_iff.mp h
  rw [Loop.toJson]
  exact restores_fields
    (.cons ((restores_reference? iterator).stores ..) <|
     .cons ((restores_reference? output).stores ..) <|
     .cons ((restores_varType outputType).stores ..) <|
     .cons ((L.restores_bool parallel).stores ..) <|
     .cons ((restores_edges hedges).stores ..) <|
     .cons (body.stores ..) .nil)
    (by simp) (by simp [commute_iff]) rfl

theorem isWritable_body {n : Node} {loop : Loop} (h : n.isWritable = true)
    (hloop : n.config = .iteration loop) : loop.body.isWritable = true := by
  obtain ⟨id, kind, title, config, inputs, outputs, presentation⟩ := n
  obtain rfl : config = .iteration loop := hloop
  obtain ⟨h, -⟩ := Bool.and_eq_true_iff.mp h
  obtain ⟨hconfig, -⟩ := Bool.and_eq_true_iff.mp h
  cases loop
  exact (Bool.and_eq_true_iff.mp hconfig).2

/-- A node of every kind comes back with its settings, an empty record of settings too. -/
theorem restores_config {readBody : Reader Graph} {c : Config} (h : c.isWritable = true)
    (body : ∀ loop, c = .iteration loop → L.Restores readBody loop.body.toJson loop.body) :
    L.Restores (Config.reader readBody) c.toJson c := by
  cases c with
  | start =>
    have none : L.Restores (Reader.record "StartConfig" () []) (.obj []) () :=
      restores_fields .nil List.nodup_nil List.Pairwise.nil rfl
    exact restores_tagged rfl (none.map _)
  | finish answer =>
    have one : L.Restores
        (Reader.record "EndConfig" none [.optional "answer" Reader.text fun v _ => v])
        (.obj [("answer", .ofText? answer)]) answer :=
      restores_fields (.cons ((restores_text? answer).stores ..) .nil)
        (List.pairwise_singleton _ _) (List.pairwise_singleton _ _) rfl
    exact restores_tagged rfl (one.map _)
  | llm c => exact restores_tagged rfl ((restores_llmConfig h).map _)
  | code c => exact restores_tagged rfl ((restores_codeConfig c).map _)
  | condition cases =>
    have items := restores_list (L := L) fun d hd =>
      restores_branchCase (List.all_eq_true.mp (h : cases.all _ = true) d hd)
    have one : L.Restores (Reader.record "ConditionConfig" []
        [.required "cases" (Reader.list BranchCase.read) fun v _ => v])
        (.obj [("cases", .ofList BranchCase.toJson cases)]) cases :=
      restores_fields (.cons (items.stores ..) .nil)
        (List.pairwise_singleton _ _) (List.pairwise_singleton _ _) rfl
    exact restores_tagged rfl (one.map _)
  | classifier c => exact restores_tagged rfl ((restores_classifierConfig h).map _)
  | iteration loop => exact restores_tagged rfl ((restores_loop h (body loop rfl)).map _)

theorem restores_node {readBody : Reader Graph} {n : Node} (h : n.isWritable = true)
    (body : ∀ loop, n.config = .iteration loop → L.Restores readBody loop.body.toJson loop.body) :
    L.Restores (Node.reader readBody) n.toJson n := by
  obtain ⟨id, kind, title, config, inputs, outputs, presentation⟩ := n
  obtain ⟨h, hpresentation⟩ := Bool.and_eq_true_iff.mp h
  obtain ⟨hconfig, hinputs⟩ := Bool.and_eq_true_iff.mp h
  have ins := restores_list (L := L) fun i hi => restores_input (List.all_eq_true.mp hinputs i hi)
  have outs := restores_list (L := L) fun o (_ : o ∈ outputs) => restores_output o
  rw [Node.toJson]
  exact restores_fields
    (.cons ((L.restores_text id).stores ..) <|
     .cons ((restores_nodeKind kind).stores ..) <|
     .cons ((L.restores_text title).stores ..) <|
     .cons ((restores_config hconfig body).stores ..) <|
     .cons (ins.stores ..) <|
     .cons (outs.stores ..) <|
     .cons ((restores_presentation hpresentation).stores ..) .nil)
    (by simp) (by simp [commute_iff]) rfl

/-- The body of an iteration is less deep than the graph that the iteration stands in. -/
theorem depth_body_lt {g : Graph} {n : Node} {loop : Loop} (hn : n ∈ g.nodes)
    (hloop : n.config = .iteration loop) :
    (L.lay loop.body.toJson).depth < (L.lay g.toJson).depth := by
  have ofLoop : (L.lay loop.body.toJson).depth < (L.lay loop.toJson).depth := by
    cases loop
    rw [Loop.toJson]
    exact L.depth_field_lt "body" (by simp) (by simp)
  have ofConfig : (L.lay loop.toJson).depth < (L.lay n.config.toJson).depth := by
    rw [hloop, Config.toJson]
    exact L.depth_tagged_lt "Iteration" loop.toJson
  have ofNode : (L.lay n.config.toJson).depth < (L.lay n.toJson).depth := by
    cases n
    rw [Node.toJson]
    exact L.depth_field_lt "config" (by simp) (by simp)
  have ofNodes : (L.lay n.toJson).depth < (L.lay (.arr (Node.listToJson g.nodes))).depth := by
    rw [listToJson_eq_map]
    exact L.depth_item_lt (List.mem_map_of_mem hn)
  have ofGraph : (L.lay (.arr (Node.listToJson g.nodes))).depth < (L.lay g.toJson).depth := by
    cases g
    rw [Graph.toJson]
    exact L.depth_field_lt "nodes" (by simp) (by simp)
  omega

/-- A graph is read back by every reader that may descend as far as its notation is deep.
The induction is on the descents left: a body uses up one of them. -/
theorem restores_graphWithin (n : Nat) : ∀ g : Graph, g.isWritable = true →
    (L.lay g.toJson).depth ≤ n → L.Restores (Graph.readWithin n) g.toJson g := by
  induction n with
  | zero =>
    intro g _ hdepth
    exact absurd hdepth (Nat.not_le_of_lt (depth_pos _))
  | succ n ih =>
    intro g hg hdepth
    obtain ⟨nodes, edges⟩ := g
    obtain ⟨hnodes, hedges⟩ := Bool.and_eq_true_iff.mp hg
    have restored : L.Restores (Reader.list (Node.reader (Graph.readWithin n)))
        (.ofList Node.toJson nodes) nodes := by
      refine restores_list fun node hnode => ?_
      have hwritable := isWritable_of_mem_nodes hnodes hnode
      refine restores_node hwritable fun loop hloop => ?_
      have hshallow := depth_body_lt (L := L) (g := ⟨nodes, edges⟩) hnode hloop
      exact ih loop.body (isWritable_body hwritable hloop) (by omega)
    rw [Graph.toJson, listToJson_eq_map]
    exact restores_fields
      (.cons (restored.stores ..) <| .cons ((restores_edges hedges).stores ..) .nil)
      (by simp) (by simp [commute_iff]) rfl

theorem restores_graph {g : Graph} (h : g.isWritable = true) : L.Restores Graph.read g.toJson g :=
  restores_graphWithin _ g h (Nat.le_refl _)

/-! ## Records and documents -/

theorem recordsToJson_eq_map (records : List Record) :
    Record.listToJson records = records.map Record.toJson :=
  eq_map_of_cons rfl (fun _ _ => rfl) records

theorem isWritable_of_mem_records {r : Record} {records : List Record}
    (h : Record.allWritable records = true) (hr : r ∈ records) : r.isWritable = true :=
  holds_of_mem h hr fun _ _ => rfl

theorem isWritable_inner {r inner : Record} {b : Blocks} (h : r.isWritable = true)
    (hb : r.blocks = some b) (hinner : inner ∈ b.records) : inner.isWritable = true := by
  obtain ⟨id, tag, title, params, inputs, outputs, blocks, presentation⟩ := r
  obtain rfl : blocks = some b := hb
  obtain ⟨h, -⟩ := Bool.and_eq_true_iff.mp h
  obtain ⟨-, hblocks⟩ := Bool.and_eq_true_iff.mp h
  cases b
  exact isWritable_of_mem_records hblocks hinner

theorem restores_pointer (p : Pointer) : L.Restores Pointer.read p.toJson p :=
  restores_fields
    (.cons ((L.restores_text p.node).stores ..) <|
     .cons ((L.restores_text p.output).stores ..) .nil)
    (by simp) (by simp [commute_iff]) rfl

/-- A constant comes back as it is, null too. -/
theorem restores_recordInput {i : RecordInput} (h : i.isWritable = true) :
    L.Restores RecordInput.read i.toJson i := by
  obtain ⟨name, type, value⟩ := i
  have restored : L.Restores RecordValue.read value.toJson value := by
    cases value with
    | pointer p => exact restores_tagged rfl ((restores_pointer p).map _)
    | literal j => exact restores_tagged rfl ((L.restores_any h).map _)
  exact restores_fields
    (.cons ((L.restores_text name).stores ..) <|
     .cons ((restores_text? type).stores ..) <|
     .cons (restored.stores ..) .nil)
    (by simp) (by simp [commute_iff]) rfl

theorem restores_recordOutput (o : RecordOutput) : L.Restores RecordOutput.read o.toJson o :=
  restores_fields
    (.cons ((L.restores_text o.name).stores ..) <|
     .cons ((restores_text? o.type).stores ..) .nil)
    (by simp) (by simp [commute_iff]) rfl

theorem restores_link (l : Link) : L.Restores Link.read l.toJson l :=
  restores_fields
    (.cons ((L.restores_text l.id).stores ..) <|
     .cons ((L.restores_text l.source).stores ..) <|
     .cons ((restores_text? l.sourceHandle).stores ..) <|
     .cons ((L.restores_text l.target).stores ..) <|
     .cons ((restores_text? l.targetHandle).stores ..) .nil)
    (by simp) (by simp [commute_iff]) rfl

theorem restores_links (links : List Link) :
    L.Restores (Reader.list Link.read) (.ofList Link.toJson links) links :=
  restores_list fun l _ => restores_link l

theorem restores_params {params : List (String × Json)} (h : (Json.obj params).isOrdered = true) :
    L.Restores (Reader.fields Reader.any) (.obj params) params := by
  have entries : ∀ t : Fields Json, Reader.allFields Reader.any t = .ok t := by
    intro t
    induction t with
    | nil => rfl
    | cons entry t ih =>
      rw [Reader.allFields, ih]
      rfl
  rw [Restores, L.lay_eq_self _ h]
  exact entries params

theorem restores_blocks {readRecord : Reader Record} {b : Blocks}
    (records : ∀ r ∈ b.records, L.Restores readRecord r.toJson r) :
    L.Restores (Blocks.reader readRecord) b.toJson b := by
  obtain ⟨rs, links⟩ := b
  rw [Blocks.toJson, recordsToJson_eq_map]
  exact restores_fields
    (.cons ((restores_list records).stores ..) <| .cons ((restores_links links).stores ..) .nil)
    (by simp) (by simp [commute_iff]) rfl

theorem optionToJson_eq_ofOption (blocks : Option Blocks) :
    Blocks.optionToJson blocks = .ofOption Blocks.toJson blocks := by
  cases blocks <;> rfl

/-- The records of a body are less deep than the record that the body is stored on. -/
theorem depth_inner_lt {r inner : Record} {b : Blocks} (hb : r.blocks = some b)
    (hinner : inner ∈ b.records) : (L.lay inner.toJson).depth < (L.lay r.toJson).depth := by
  have ofRecords : (L.lay inner.toJson).depth <
      (L.lay (.arr (Record.listToJson b.records))).depth := by
    rw [recordsToJson_eq_map]
    exact L.depth_item_lt (List.mem_map_of_mem hinner)
  have ofBlocks : (L.lay (.arr (Record.listToJson b.records))).depth < (L.lay b.toJson).depth := by
    cases b
    rw [Blocks.toJson]
    exact L.depth_field_lt "nodes" (by simp) (by simp)
  have ofRecord : (L.lay b.toJson).depth < (L.lay r.toJson).depth := by
    cases r
    obtain rfl : _ = some b := hb
    rw [Record.toJson]
    exact L.depth_field_lt "blocks" (by simp) (by simp [Blocks.optionToJson])
  omega

theorem restores_recordWithin (n : Nat) : ∀ r : Record, r.isWritable = true →
    (L.lay r.toJson).depth ≤ n → L.Restores (Record.readWithin n) r.toJson r := by
  induction n with
  | zero =>
    intro r _ hdepth
    exact absurd hdepth (Nat.not_le_of_lt (depth_pos _))
  | succ n ih =>
    intro r hr hdepth
    have blocks : L.Restores (Reader.option (Blocks.reader (Record.readWithin n)))
        (.ofOption Blocks.toJson r.blocks) r.blocks := by
      refine restores_option (fun b hb => restores_blocks fun inner hinner => ?_) nofun
      have hshallow := depth_inner_lt (L := L) hb hinner
      exact ih inner (isWritable_inner hr hb hinner) (by omega)
    obtain ⟨id, tag, title, params, inputs, outputs, b?, presentation⟩ := r
    obtain ⟨hr, hpresentation⟩ := Bool.and_eq_true_iff.mp hr
    obtain ⟨hr, -⟩ := Bool.and_eq_true_iff.mp hr
    obtain ⟨hparams, hinputs⟩ := Bool.and_eq_true_iff.mp hr
    have ins := restores_list (L := L) fun i hi =>
      restores_recordInput (List.all_eq_true.mp hinputs i hi)
    have outs := restores_list (L := L) fun o (_ : o ∈ outputs) => restores_recordOutput o
    rw [Record.toJson, optionToJson_eq_ofOption]
    exact restores_fields
      (.cons ((L.restores_text id).stores ..) <|
       .cons ((L.restores_text tag).stores ..) <|
       .cons ((restores_text? title).stores ..) <|
       .cons ((restores_params hparams).stores ..) <|
       .cons (ins.stores ..) <|
       .cons (outs.stores ..) <|
       .cons (blocks.stores ..) <|
       .cons ((restores_presentation hpresentation).stores ..) .nil)
      (by simp) (by simp [commute_iff]) rfl

theorem restores_records {records : List Record} (h : Record.allWritable records = true) :
    ∀ r ∈ records, L.Restores Record.read r.toJson r := fun r hr =>
  restores_recordWithin _ r (isWritable_of_mem_records h hr) (Nat.le_refl _)

theorem restores_document {d : Document} (h : d.isWritable = true) :
    L.Restores Document.read d.toJson d := by
  obtain ⟨records, links, sections⟩ := d
  obtain ⟨hrecords, hsections⟩ := Bool.and_eq_true_iff.mp h
  have bodies : L.Restores (Reader.table Blocks.read)
      (.obj (sections.entries.map (Prod.map id Blocks.toJson))) sections := by
    refine restores_table fun entry hentry => ?_
    exact restores_blocks (restores_records (List.all_eq_true.mp hsections entry hentry))
  rw [Document.toJson, recordsToJson_eq_map]
  exact restores_fields
    (.cons ((restores_list (restores_records hrecords)).stores ..) <|
     .cons ((restores_links links).stores ..) <|
     .cons (bodies.stores ..) .nil)
    (by simp) (by simp [commute_iff]) rfl

end Json.Layout

/-- Graphs and documents come back from JSON as they were, from an object whose fields
stand in the order of their declaration and from one that is kept as a sorted map. The
conditions are those of the notation and nothing else: floating-point numbers are finite,
positions fit in a machine word, and free objects list their names in order. -/
theorem Json.read_toJson :
    (∀ g : Graph, g.isWritable = true →
      Graph.read g.toJson = .ok g ∧ Graph.read g.toJson.sorted = .ok g) ∧
    ∀ d : Document, d.isWritable = true →
      Document.read d.toJson = .ok d ∧ Document.read d.toJson.sorted = .ok d := by
  refine ⟨fun g hg => ⟨?_, ?_⟩, fun d hd => ⟨?_, ?_⟩⟩
  · exact Layout.restores_graph (L := .declared) hg
  · exact Layout.restores_graph (L := .ascending) hg
  · exact Layout.restores_document (L := .declared) hd
  · exact Layout.restores_document (L := .ascending) hd

/-- Values that look like others: raw handles with the names of proper ones, a constant
null beside a text that says so, empty settings, and a loop around them. -/
def Graph.lookalikes : Graph where
  nodes :=
    [.ofConfig "begin" "Begin" .start,
     .ofConfig "stop" "Stop" (.finish none),
     .ofConfig "each" "Each" (.iteration
      ⟨none, some ⟨"pick", "item", .any⟩, .array, true, [.plain "in" "each" "pick"],
        ⟨[⟨"pick", .condition, "Pick",
            .condition [⟨"first", .or, [⟨none, "is", .null⟩, ⟨none, "is", .string "Null"⟩]⟩],
            [⟨"x", .any, .literal (.object [("b", .null), ("a", .array [.number ⟨0⟩])])⟩],
            [], ⟨some ⟨⟨0x8000000000000000⟩, ⟨0x3ff0000000000000⟩⟩, none⟩⟩], []⟩⟩)]
  edges :=
    [⟨"e", "begin", .raw "default", "each", "target", .control⟩,
     ⟨"f", "each", .raw "case", "stop", "target", .control⟩,
     ⟨"g", "each", .case 0xffffffffffffffff, "stop", "target", .control⟩]

/-- A loop that stores its body, with free JSON values and a constant null at both levels,
and a section beside it. -/
def Document.lookalikes : Document where
  records :=
    [{ Record.bare "each" "21" with
       params := [("a", .obj [("Literal", .null), ("Reference", .num (.int 5))]), ("b", .null)]
       inputs := [⟨"x", none, .literal .null⟩]
       blocks := some
        ⟨[{ Record.bare "pick" "8" with
            inputs := [⟨"y", some "null", .literal (.str "Null")⟩, ⟨"z", none, .pointer ⟨"a", ""⟩⟩]
            presentation := ⟨some ⟨⟨0⟩, ⟨0x8000000000000000⟩⟩, some ""⟩ }],
          [⟨"", "a", none, "b", some ""⟩]⟩ }]
  links := []
  sections := [("other", Blocks.mk [.bare "late" "2"] [])]

theorem Json.read_toJson_lookalikes :
    (Graph.lookalikes.isWritable = true ∧ Document.lookalikes.isWritable = true) ∧
    (Graph.read Graph.lookalikes.toJson = .ok Graph.lookalikes ∧
      Graph.read Graph.lookalikes.toJson.sorted = .ok Graph.lookalikes) ∧
    Document.read Document.lookalikes.toJson = .ok Document.lookalikes ∧
      Document.read Document.lookalikes.toJson.sorted = .ok Document.lookalikes := by
  have graph : Graph.lookalikes.isWritable = true := by decide
  have document : Document.lookalikes.isWritable = true := by decide
  exact ⟨⟨graph, document⟩, read_toJson.1 _ graph, read_toJson.2 _ document⟩

end WorkflowGraph
