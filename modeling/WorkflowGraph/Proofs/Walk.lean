/-
# The levels of a graph

The levels of a graph are the graph itself and the levels inside the bodies of its
iteration nodes. A walk meets the nodes of all of them.
-/

import WorkflowGraph.Graph.Query

namespace WorkflowGraph.Graph

theorem walk_eq (g : Graph) : g.walk = walkNodes g.nodes := by
  cases g
  rw [walk]

theorem walkNodes_cons (n : Node) (ns : List Node) :
    walkNodes (n :: ns) = n :: walkBody n.config ++ walkNodes ns := by
  cases n
  rw [walkNodes]

theorem walkBody_iteration (loop : Loop) : walkBody (.iteration loop) = loop.body.walk := by
  cases loop
  rw [walkBody]

theorem walkBody_of_ne {config : Config} (hconfig : config.kind ≠ .iteration) :
    walkBody config = [] := by
  cases config with
  | iteration loop => exact absurd rfl hconfig
  | _ => simp only [walkBody]

/-- A level of a graph: the graph itself, or a level of the body of one of its nodes. -/
inductive HasLevel : Graph → Graph → Prop
  | self {g : Graph} : HasLevel g g
  | body {g level : Graph} {n : Node} {loop : Loop} :
      n ∈ g.nodes → n.config = .iteration loop → HasLevel loop.body level → HasLevel g level

/-- A walk meets each node of the outermost level, and then the nodes of its body. -/
theorem cons_subset_walkNodes {n : Node} {ns : List Node} (hn : n ∈ ns) :
    n :: walkBody n.config ⊆ walkNodes ns := by
  induction ns with
  | nil => cases hn
  | cons m ms ih =>
      rw [walkNodes_cons]
      rcases List.mem_cons.mp hn with rfl | hlater
      · exact List.subset_append_left _ _
      · exact List.subset_append_of_subset_right _ (ih hlater)

theorem mem_walk_of_mem {g : Graph} {n : Node} (hn : n ∈ g.nodes) : n ∈ g.walk := by
  rw [walk_eq]
  exact cons_subset_walkNodes hn List.mem_cons_self

theorem walk_body_subset_walk {g : Graph} {n : Node} {loop : Loop} (hn : n ∈ g.nodes)
    (hloop : n.config = .iteration loop) : loop.body.walk ⊆ g.walk := by
  have hinside := (List.cons_subset.mp (cons_subset_walkNodes hn)).2
  rwa [hloop, walkBody_iteration, ← walk_eq] at hinside

/-- A walk meets the nodes of every level. -/
theorem mem_walk_of_hasLevel {g level : Graph} {n : Node} (hlevel : g.HasLevel level)
    (hn : n ∈ level.nodes) : n ∈ g.walk := by
  induction hlevel with
  | self => exact mem_walk_of_mem hn
  | body howner hloop _ ih => exact walk_body_subset_walk howner hloop (ih hn)

end WorkflowGraph.Graph
