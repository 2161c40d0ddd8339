/-
# The assembled graph keeps the rules

The graph of a nesting passes the check if the lists of the nesting repeat no id, the
links of a level that leave its list also arrive there, and the entry edges of every
iteration node arrive in the list inside it. The decoders see to the rest.
-/

import WorkflowGraph.Proofs.AttachedNodes
import WorkflowGraph.Proofs.WellFormed

namespace WorkflowGraph

namespace Nested

/-- The iteration nodes of a nesting in document order, each before those inside it: its
id and the list inside it. -/
def loops : Nested Node → List (String × List Node)
  | .nil => []
  | .leaf n rest => if n.kind = .iteration then (n.id, []) :: rest.loops else rest.loops
  | .loop n inner rest => (n.id, inner.roots) :: (inner.loops ++ rest.loops)

end Nested

namespace Assembly

open WorkflowGraph.Graph

/-- A list that repeats no id, on a level whose links arrive in the list if they leave
it. -/
structure ListFits (part : EdgePartition) (level : Level) (f : Nested Node) : Prop where
  ids : f.ids.Nodup
  edges : ∀ l ∈ part.onLevel level, l.source ∈ f.ids → l.target ∈ f.ids

/-- The entry edges of each iteration node lead from it into the list inside it. -/
def EntriesFit (part : EdgePartition) (loops : List (String × List Node)) : Prop :=
  ∀ e ∈ loops, ∀ edge ∈ part.entryEdges e.1, edge.kind = .iterationStart ∧
    edge.source = e.1 ∧ edge.target ∈ e.2.map Node.id

variable {p : Platform} {part : EdgePartition}

/-- The edges of a level are control edges between its nodes, if the links of the level
that leave one of them arrive at one of them. -/
theorem edges_join {level : Level} {nodes : List Node}
    (harrive : ∀ l ∈ part.onLevel level, l.source ∈ nodes.map Node.id →
      l.target ∈ nodes.map Node.id) :
    ∀ e ∈ edges p part level nodes, e.kind = .control ∧ e.source ∈ nodes.map Node.id ∧
      e.target ∈ nodes.map Node.id := by
  intro e he
  obtain ⟨⟨l, n⟩, hsourced, rfl⟩ := List.mem_map.mp he
  obtain ⟨link, hlink, hfound⟩ := List.mem_filterMap.mp hsourced
  obtain ⟨_, hlast, hpair⟩ := Option.map_eq_some_iff.mp hfound
  obtain ⟨rfl, rfl⟩ := Prod.mk.inj hpair
  have hsource : link.source ∈ nodes.map Node.id :=
    (isSome_lastNode?_iff _ _).mp (Option.isSome_iff_exists.mpr ⟨_, hlast⟩)
  exact ⟨rfl, hsource, harrive link hlink hsource⟩

/-- The edges of a level join nodes of the level. -/
theorem levelRules_attached {level : Level} {f : Nested Node} (hfits : ListFits part level f) :
    LevelRules (attached p part f) (edges p part level (attached p part f)) where
  ids := by
    rw [ids_attached]
    exact hfits.ids
  edges := edges_join (by rw [ids_attached]; exact hfits.edges)

/-- An iteration node with a body in which its entry edges arrive keeps the rules of a
node. -/
theorem nodeRules_withBody {n : Node} (hn : n.IsFresh) (hkind : n.kind = .iteration)
    {body : Graph}
    (hentries : ∀ edge ∈ part.entryEdges n.id, edge.kind = .iterationStart ∧
      edge.source = n.id ∧ edge.target ∈ body.nodes.map Node.id) :
    NodeRules (n.withBody part body) := by
  obtain ⟨loop, hconfig, hinside, hedges⟩ := hn.withBody_config hkind part body
  have hface := n.withBody_face part body
  have hsame : (n.withBody part body).kind = n.kind := congrArg Face.kind hface
  have houtputs : (n.withBody part body).outputs = n.outputs := congrArg Face.outputs hface
  refine ⟨?_, ?_, fun other hother => ?_⟩
  · rw [hconfig, hsame]
    exact hkind.symm
  · rw [houtputs]
    exact hn.outputs
  · obtain rfl := Config.iteration.inj (hconfig.symm.trans hother)
    rw [hinside, hedges, Node.withBody_id]
    exact hentries

/-- A fresh node of another kind keeps the rules of a node. -/
theorem nodeRules_of_ne {n : Node} (hn : n.IsFresh) (hkind : n.kind ≠ .iteration) :
    NodeRules n where
  config := hn.config
  outputs := hn.outputs
  entries _ hloop := absurd (hn.config.symm.trans (congrArg Config.kind hloop)) hkind

/-- An iteration node with a body that keeps the rules keeps them too. -/
theorem nodeKeepsRules_withBody {n : Node} (hn : n.IsFresh) (hkind : n.kind = .iteration)
    {body : Graph} (hbody : LevelRules body.nodes body.edges)
    (hentries : ∀ edge ∈ part.entryEdges n.id, edge.kind = .iterationStart ∧
      edge.source = n.id ∧ edge.target ∈ body.nodes.map Node.id) :
    NodeKeepsRules (n.withBody part body) := by
  obtain ⟨loop, hconfig, hinside, -⟩ := hn.withBody_config hkind part body
  refine ⟨nodeRules_withBody hn hkind hentries, fun other hother => ?_⟩
  obtain rfl := Config.iteration.inj (hconfig.symm.trans hother)
  rw [hinside]
  exact hbody

/-- If an iteration node with a body keeps the rules, its entry edges arrive in the body. -/
theorem entries_of_nodeKeepsRules {n : Node} (hn : n.IsFresh) (hkind : n.kind = .iteration)
    {body : Graph} (hrules : NodeKeepsRules (n.withBody part body)) :
    ∀ edge ∈ part.entryEdges n.id, edge.kind = .iterationStart ∧
      edge.source = n.id ∧ edge.target ∈ body.nodes.map Node.id := by
  obtain ⟨loop, hconfig, hinside, hedges⟩ := hn.withBody_config hkind part body
  have hentries := hrules.node.entries loop hconfig
  rwa [hinside, hedges, Node.withBody_id] at hentries

/-- The nodes on all levels inside a nesting keep their rules. -/
theorem nodesKeepRules_attached {f : Nested Node} (hfresh : f.IsFresh)
    (hlists : ∀ e ∈ f.bodies Node.id, ListFits part e.1 e.2)
    (hentries : EntriesFit part f.loops) :
    ∀ n ∈ walkNodes (attached p part f), NodeKeepsRules n := by
  induction hfresh with
  | nil => exact fun _ hn => absurd hn List.not_mem_nil
  | @leaf n rest hn _ ih =>
      rw [walkNodes_attached_leaf _ _ hn, List.forall_mem_cons, bare]
      split
      next hkind =>
          simp only [Nested.loops, hkind, if_true] at hentries
          obtain ⟨hhere, hrest⟩ := List.forall_mem_cons.mp hentries
          exact ⟨nodeKeepsRules_withBody hn hkind ⟨.nil, fun _ he => absurd he List.not_mem_nil⟩
            hhere, ih hlists hrest⟩
      next hkind =>
          simp only [Nested.loops, hkind, if_false] at hentries
          refine ⟨⟨nodeRules_of_ne hn hkind, fun loop hloop => ?_⟩, ih hlists hentries⟩
          exact absurd (hn.config.symm.trans (congrArg Config.kind hloop)) hkind
  | @loop n inner rest hn hkind _ _ ihInner ihRest =>
      rw [Nested.bodies, List.forall_mem_append, List.forall_mem_cons] at hlists
      obtain ⟨hinside, hlist, hlater⟩ := hlists
      obtain ⟨hhere, htail⟩ := List.forall_mem_cons.mp hentries
      obtain ⟨hinner, hrest⟩ := List.forall_mem_append.mp htail
      rw [walkNodes_attached_loop _ _ hn hkind, List.forall_mem_cons, List.forall_mem_append]
      refine ⟨nodeKeepsRules_withBody hn hkind (levelRules_attached hlist) ?_,
        ihInner hinside hinner, ihRest hlater hrest⟩
      rw [graph, ids_attached]
      exact hhere

/-- If the nodes inside a nesting keep their rules, the entry edges fit. -/
theorem entriesFit_of_nodesKeepRules {f : Nested Node} (hfresh : f.IsFresh)
    (hrules : ∀ n ∈ walkNodes (attached p part f), NodeKeepsRules n) :
    EntriesFit part f.loops := by
  induction hfresh with
  | nil => exact fun _ he => absurd he List.not_mem_nil
  | @leaf n rest hn _ ih =>
      rw [walkNodes_attached_leaf _ _ hn, List.forall_mem_cons, bare] at hrules
      obtain ⟨hhere, hrest⟩ := hrules
      unfold Nested.loops
      split
      next hkind =>
          rw [if_pos hkind] at hhere
          exact List.forall_mem_cons.mpr ⟨entries_of_nodeKeepsRules hn hkind hhere, ih hrest⟩
      next => exact ih hrest
  | @loop n inner rest hn hkind _ _ ihInner ihRest =>
      rw [walkNodes_attached_loop _ _ hn hkind, List.forall_mem_cons,
        List.forall_mem_append] at hrules
      obtain ⟨hhere, hinside, hrest⟩ := hrules
      have hentries := entries_of_nodeKeepsRules hn hkind hhere
      rw [graph, ids_attached] at hentries
      exact List.forall_mem_cons.mpr
        ⟨hentries, List.forall_mem_append.mpr ⟨ihInner hinside, ihRest hrest⟩⟩

/-- The graph of a nesting keeps the rules if its lists and its entry edges fit. -/
theorem keepsRules_graph {level : Level} {f : Nested Node} (hfresh : f.IsFresh)
    (hlists : ∀ e ∈ f.levels Node.id level, ListFits part e.1 e.2)
    (hentries : EntriesFit part f.loops) : (graph p part level f).KeepsRules where
  level := levelRules_attached (hlists (level, f) (List.mem_append_right _ List.mem_cons_self))
  nodes := by
    rw [walk_eq]
    exact nodesKeepRules_attached hfresh (fun e he => hlists e (List.mem_append_left _ he))
      hentries

end Assembly

end WorkflowGraph
