/-
# Nodes without their references

The references of a node depend on the rest of its document: on what the resolver knows and
on which nodes are in the graph. What is left without them is the shell of the node, and a
decoder of the library builds the same shell in every context. The body of an iteration
node is no part of its shell either. The handles on which edges leave a node are read off
its shell, so the inside of a loop, as far as nodes are known by their shells, can be read
off the records of its body and the links that are sorted to it.
-/

import WorkflowGraph.Proofs.EdgeFates
import WorkflowGraph.Proofs.RepeatedLoops

namespace WorkflowGraph

/-- Settings without references, and without a body and entry edges. -/
def Config.shell : Config → Config
  | .condition cases => .condition <| cases.map fun c =>
    { c with conditions := c.conditions.map fun k => { k with left := none } }
  | .classifier c => .classifier { c with query := none }
  | .iteration loop => .iteration
    { loop with iterator := none, output := none, entryEdges := [], body := .empty }
  | config => config

/-- The inputs that are constants. -/
def Input.constants (is : List Input) : List Input :=
  is.filter fun i => i.reference?.isNone

/-- A filter that keeps constants keeps all of them. -/
theorem Input.constants_filter {is : List Input} {q : Input → Bool}
    (hq : ∀ i : Input, i.reference? = none → q i = true) :
    Input.constants (is.filter q) = Input.constants is := by
  unfold constants
  rw [List.filter_filter]
  apply List.filter_congr
  intro i _
  cases hi : i.reference? with
  | none => simp [hq i hi]
  | some r => simp

namespace Node

/-- A node without its references, its body and its entry edges. -/
def shell (n : Node) : Node :=
  { n with inputs := Input.constants n.inputs, config := n.config.shell }

@[simp] theorem shell_id (n : Node) : n.shell.id = n.id := rfl

theorem shell_withBody (part : EdgePartition) (n : Node) (body : Graph) :
    (n.withBody part body).shell = n.shell := by
  unfold withBody reattach?
  cases hconfig : n.config <;> simp [shell, Config.shell, hconfig]

end Node

/-- Leaving references out keeps the shell. -/
theorem Dangling.shell_cleanNode (present : List String) (n : Node) :
    (cleanNode present n).shell = n.shell := by
  have hinputs : Input.constants (n.inputs.filter (keepsInput present)) =
      Input.constants n.inputs :=
    Input.constants_filter fun i hi => by simp [keepsInput, hi]
  have hconfig : (cleanConfig present n.config).shell = n.config.shell := by
    cases n.config <;>
      simp [cleanConfig, Config.shell, cleanCase, cleanCondition, Function.comp_def]
  simp only [Node.shell, cleanNode, hinputs, hconfig]

/-- An input captures the pointer that its record declares, and nothing else. -/
theorem DecodeContext.reference?_input (ctx : DecodeContext) (i : RecordInput) :
    (ctx.input i).reference? =
      i.pointer?.map fun p => ctx.capture p ((i.type.map VarType.parse).getD .any) := by
  cases hvalue : i.value <;> simp [input, hvalue, RecordInput.pointer?, Input.reference?,
    Input.ofReference, Input.ofLiteral]

namespace Decoder

theorem constants_inputs (ctx other : DecodeContext) (is : List RecordInput) :
    Input.constants (is.map ctx.input) = Input.constants (is.map other.input) := by
  induction is with
  | nil => rfl
  | cons i is ih =>
      unfold Input.constants at ih ⊢
      cases hvalue : i.value with
      | pointer p =>
          simpa [DecodeContext.reference?_input, RecordInput.pointer?, hvalue] using ih
      | literal j =>
          have hhere : ctx.input i = other.input i := by simp [DecodeContext.input, hvalue]
          rw [List.map_cons, List.map_cons, List.filter_cons, List.filter_cons, hhere, ih]

/-- The shell of a node is settled by the shell of its settings. -/
theorem shell_node (ctx other : DecodeContext) (r : Record) {config config' : Config}
    (hkind : config.kind = config'.kind) (hshell : config.shell = config'.shell) :
    (ctx.node r config).shell = (other.node r config').shell := by
  simp [Node.shell, DecodeContext.node, Node.ofConfig, hkind, hshell,
    constants_inputs ctx other r.inputs]

theorem shell_withDefaultOutput (name : String) (n : Node) :
    (withDefaultOutput name n).shell = withDefaultOutput name n.shell := by
  unfold withDefaultOutput
  split <;> simp_all [Node.shell]

/-- A decoder that first reads the parameters of a record builds one shell if what it makes
of them does. -/
private theorem map_shell_of_read {α : Type} (reader : Json.Reader α) (r : Record)
    {build build' : α → Node} (hbuild : ∀ a, (build a).shell = (build' a).shell) :
    ((Params.read reader r).bind fun a => .ok (build a)).map Node.shell =
      ((Params.read reader r).bind fun a => .ok (build' a)).map Node.shell := by
  cases Params.read reader r with
  | error e => rfl
  | ok a => exact congrArg Except.ok (hbuild a)

/-- A decoder of the library builds one shell from a record, whatever the context. -/
theorem map_shell_decode (kind : NodeKind) (ctx other : DecodeContext) (r : Record) :
    ((builtIn kind).decode ctx r).map Node.shell =
      ((builtIn kind).decode other r).map Node.shell := by
  cases kind with
  | start => exact congrArg Except.ok (shell_node ctx other r rfl rfl)
  | finish =>
      refine map_shell_of_read Params.finish r fun answer => ?_
      have hnode := @shell_node ctx other r (.finish answer) (.finish answer) rfl rfl
      simp only [Node.shell] at hnode ⊢
      rw [Input.constants_filter fun i hi => by simp [hi],
        Input.constants_filter fun i hi => by simp [hi]]
      exact hnode
  | llm =>
      refine map_shell_of_read Params.llm r fun config => ?_
      rw [shell_withDefaultOutput, shell_withDefaultOutput, shell_node ctx other r rfl rfl]
  | code => exact map_shell_of_read Params.code r fun config => shell_node ctx other r rfl rfl
  | condition =>
      refine map_shell_of_read Params.condition r fun cases => shell_node ctx other r rfl ?_
      refine congrArg Config.condition (List.ext_getElem? fun k => ?_)
      simp [branchCase, condition, Function.comp_def]
  | classifier =>
      refine map_shell_of_read Params.classifier r fun p => ?_
      rw [shell_withDefaultOutput, shell_withDefaultOutput]
      exact congrArg _ (shell_node ctx other r rfl rfl)
  | iteration =>
      refine map_shell_of_read Params.iteration r fun p => ?_
      simp only [Node.shell, DecodeContext.node, Node.ofConfig, Config.shell, Config.kind,
        constants_inputs ctx other r.inputs]

end Decoder

namespace Registry

variable {g : Registry}

/-- What a registry of built-in decoders makes of a record has one shell in all contexts. -/
theorem map_shell_decode (hg : g.UsesBuiltIns) (ctx other : DecodeContext) (r : Record) :
    (g.decode ctx r).map Node.shell = (g.decode other r).map Node.shell := by
  unfold decode decoder
  cases hd : Table.get? r.tag g.decoders with
  | none => rfl
  | some d =>
      have hsame := Decoder.map_shell_decode d.kind ctx other r
      rw [← hg r.tag d hd] at hsame
      exact hsame

/-- The shell of the node that a record of a level becomes, if it becomes one. -/
def shell? (g : Registry) (level : Level) (r : Record) : Option Node :=
  if g.platform.isPseudoTag r.tag then none
  else (Lift.decodeRecord g .empty level [] r).1.map Node.shell

end Registry

namespace Lift

variable {g : Registry} {resolver : Resolver} {level : Level} {r : Record}

theorem map_shell_decodeRecord (hg : g.UsesBuiltIns) (resolver other : Resolver)
    (level : Level) (removed others : List String) (r : Record) :
    (decodeRecord g resolver level removed r).1.map Node.shell =
      (decodeRecord g other level others r).1.map Node.shell := by
  have hsame := Registry.map_shell_decode hg (context g resolver removed)
    (context g other others) r
  cases level <;>
    cases hn : g.decode (context g resolver removed) r <;>
    cases hm : g.decode (context g other others) r <;>
    simp_all [decodeRecord, Registry.decodeOrPlaceholder, Except.map, context]

theorem Becomes.shell?_eq (hg : g.UsesBuiltIns) {n : Node} (hn : Becomes g resolver level r n) :
    g.shell? level r = some n.shell := by
  obtain ⟨hpseudo, removed, hout⟩ := hn
  have hsame := map_shell_decodeRecord hg .empty resolver level [] removed r
  rw [Registry.shell?, hpseudo, hsame, hout]
  rfl

/-- A record that does not survive has no shell. -/
theorem shell?_eq_none (hg : g.UsesBuiltIns) (hnone : g.survivor? level r = none) :
    g.shell? level r = none := by
  unfold Registry.shell?
  split
  · rfl
  next hpseudo =>
      have hface := (decodeRecord_spec hg .empty level [] (Bool.eq_false_iff.mpr hpseudo)).face
      rw [hnone, Option.map_eq_none_iff] at hface
      rw [hface, Option.map_none]

/-- A shell has the id of its record. -/
theorem id_of_shell? (hg : g.UsesBuiltIns) {n : Node} (hn : g.shell? level r = some n) :
    n.id = r.id := by
  unfold Registry.shell? at hn
  split at hn
  · cases hn
  next hpseudo =>
      obtain ⟨m, hm, rfl⟩ := Option.map_eq_some_iff.mp hn
      exact Becomes.id_eq hg (n := m) ⟨Bool.eq_false_iff.mpr hpseudo, [], hm⟩

end Lift

namespace Handle

/-- The meaning of a handle depends on the shell of the node that it leaves. -/
theorem ofSpelling_shell (p : Platform) (spelling : Option String) (source : Node) :
    ofSpelling p spelling source.shell = ofSpelling p spelling source := by
  cases spelling with
  | none => rfl
  | some s =>
      cases p <;> cases hconfig : source.config <;>
        simp [ofSpelling, ofDify, ofCoze, ofBailian, Node.shell, Config.shell, hconfig,
          Function.comp_def]

end Handle

namespace Assembly

variable (p : Platform) (part : EdgePartition)

theorem lastNode?_map_shell (nodes : List Node) (id : String) :
    lastNode? (nodes.map Node.shell) id = (lastNode? nodes id).map Node.shell := by
  simp [lastNode?, ← List.map_reverse, List.find?_map, Function.comp_def]

/-- The edges of a level depend on the shells of its nodes. -/
theorem edges_map_shell (level : Level) (nodes : List Node) :
    edges p part level (nodes.map Node.shell) = edges p part level nodes := by
  unfold edges sourced
  rw [List.map_filterMap, List.map_filterMap]
  apply List.filterMap_congr
  intro l _
  simp [lastNode?_map_shell, Option.map_map, Function.comp_def, Link.toEdge,
    Handle.ofSpelling_shell]

theorem edges_nil (level : Level) : edges p part level [] = [] := by
  simp [edges, sourced, lastNode?]

end Assembly

/-- What an iteration node holds: the shells of the nodes of a round, the edges between
them, and the edges that lead to those that come first. -/
structure Inside where
  owner : String
  nodes : List Node
  edges : List Edge
  entries : List Edge

/-- The inside of an iteration node. -/
def Node.inside? (n : Node) : Option Inside :=
  n.loop?.map fun loop =>
    ⟨n.id, loop.body.nodes.map Node.shell, loop.body.edges, loop.entryEdges⟩

/-- The insides of all iteration nodes in document order, each before those inside it. -/
def Graph.insides (g : Graph) : List Inside :=
  g.walk.filterMap Node.inside?

namespace Assembly

open WorkflowGraph.Graph

variable (p : Platform) (part : EdgePartition)

/-- The inside of a loop, as the records and links of its body settle it. -/
def insideOf (owner : String) (nodes : List Node) : Inside :=
  ⟨owner, nodes, edges p part (.body owner) nodes, part.entryEdges owner⟩

theorem map_shell_attached (f : Nested Node) :
    (attached p part f).map Node.shell = f.roots.map Node.shell := by
  induction f with
  | nil => rfl
  | leaf n rest ih =>
      rw [attached, Nested.roots, List.map_cons, List.map_cons, ih]
      split <;> simp [Node.shell_withBody]
  | loop n inner rest _ ih =>
      rw [attached, Nested.roots, List.map_cons, List.map_cons, ih, Node.shell_withBody]

theorem inside?_withBody {n : Node} (hn : n.IsFresh) (hkind : n.kind = .iteration)
    (body : Graph) : (n.withBody part body).inside? =
      some ⟨n.id, body.nodes.map Node.shell, body.edges, part.entryEdges n.id⟩ := by
  obtain ⟨loop, hconfig, hbody, hentries⟩ := hn.withBody_config hkind part body
  simp [Node.inside?, Node.loop?, hconfig, hbody, hentries]

/-- The insides of an assembled nesting are those of its loops. -/
theorem insides_attached {f : Nested Node} (hfresh : f.IsFresh) :
    (walkNodes (attached p part f)).filterMap Node.inside? =
      f.loops.map fun e => insideOf p part e.1 (e.2.map Node.shell) := by
  induction hfresh with
  | nil => rfl
  | @leaf n rest hn _ ih =>
      rw [walkNodes_attached_leaf _ _ hn, bare, Nested.loops]
      split
      next hkind =>
          rw [List.filterMap_cons_some (inside?_withBody part hn hkind .empty), ih]
          simp [insideOf, Graph.empty, edges_nil]
      next hkind =>
          rw [List.filterMap_cons_none (by simp [Node.inside?, loop?_of_ne hn hkind]), ih]
  | @loop n inner rest hn hkind _ _ ihInner ihRest =>
      rw [walkNodes_attached_loop _ _ hn hkind,
        List.filterMap_cons_some (inside?_withBody part hn hkind _), List.filterMap_append,
        ihInner, ihRest]
      simp [Nested.loops, insideOf, graph, map_shell_attached, edges_map_shell,
        ← edges_map_shell p part _ (attached p part inner)]

end Assembly

namespace Conversion

open Assembly Document

variable {g : Registry} {d : Document} {l : Lifted} {resolver : Resolver} {t : Nested Record}
  {f : Nested Node}

/-- The insides of a graph are read off the records of its loops. -/
theorem Rebuilt.insides_eq (hg : g.UsesBuiltIns) (hrebuilt : Rebuilt g d l t f)
    (hdecodes : Lift.Decodes g resolver .root t f) :
    (assemble g.platform l).1.insides = (loopLists g t).map fun e =>
      insideOf g.platform (partition g.platform l) e.1
        (e.2.filterMap (g.shell? (.body e.1))) := by
  have hshells := hdecodes.map_loops (fun _ _ => Lift.shell?_eq_none hg)
    (fun _ _ _ hn => hn.shell?_eq hg) hg
  have hinsides := congrArg (List.map fun e : String × List Node =>
    insideOf g.platform (partition g.platform l) e.1 e.2) hshells
  rw [List.map_map, List.map_map] at hinsides
  rw [hrebuilt.graph, Graph.insides, Graph.walk_eq, Assembly.graph,
    insides_attached _ _ ((hdecodes.isFresh hg).clean _), Nested.loops_clean, List.map_map]
  simpa [Function.comp_def, Dangling.shell_cleanNode] using hinsides

end Conversion

end WorkflowGraph
