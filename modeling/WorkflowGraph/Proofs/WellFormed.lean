/-
# What the check of a graph means

The check walks a graph and stops at the first violation. It succeeds exactly if every
level and every node of the graph keeps its rules, and the rules are stated here without
the order in which they are checked.
-/

import WorkflowGraph.Graph.Validate

namespace WorkflowGraph

theorem Node.config_eq_of_loop? {n : Node} {loop : Loop} (hloop : n.loop? = some loop) :
    n.config = .iteration loop := by
  unfold loop? at hloop
  split at hloop
  next hfound => rw [hfound, Option.some.inj hloop]
  next => cases hloop

namespace Graph

/-- The rules of one level: its nodes have different ids, and its edges are control edges
between them. -/
structure LevelRules (nodes : List Node) (edges : List Edge) : Prop where
  ids : (nodes.map Node.id).Nodup
  edges : ∀ e ∈ edges, e.kind = .control ∧ e.source ∈ nodes.map Node.id ∧
    e.target ∈ nodes.map Node.id

/-- The rules of one node: its settings are of its kind, its outputs have different
names, and the entry edges of an iteration lead from it into its body. -/
structure NodeRules (n : Node) : Prop where
  config : n.config.kind = n.kind
  outputs : (n.outputs.map Output.name).Nodup
  entries : ∀ loop, n.config = .iteration loop → ∀ e ∈ loop.entryEdges,
    e.kind = .iterationStart ∧ e.source = n.id ∧ e.target ∈ loop.body.nodes.map Node.id

/-- The rules of a node and of the level inside it. -/
structure NodeKeepsRules (n : Node) : Prop where
  node : NodeRules n
  body : ∀ loop, n.config = .iteration loop → LevelRules loop.body.nodes loop.body.edges

/-- A graph that keeps the rules on all levels. -/
structure KeepsRules (g : Graph) : Prop where
  level : LevelRules g.nodes g.edges
  nodes : ∀ n ∈ g.walk, NodeKeepsRules n

theorem firstRepeated?_eq_none_iff (seen names : List String) :
    firstRepeated? seen names = none ↔ names.Nodup ∧ ∀ s ∈ names, s ∉ seen := by
  induction names generalizing seen with
  | nil => simp [firstRepeated?]
  | cons s rest ih =>
      unfold firstRepeated?
      by_cases hseen : s ∈ seen
      · simp [hseen]
      · simp only [List.contains_eq_mem, hseen, decide_false, Bool.false_eq_true, if_false, ih,
          List.nodup_cons, List.mem_cons]
        grind

theorem edgeError?_eq_none_iff (ids : List String) (e : Edge) :
    edgeError? ids e = none ↔ e.kind = .control ∧ e.source ∈ ids ∧ e.target ∈ ids := by
  unfold edgeError?
  by_cases hkind : e.kind = .control <;> by_cases hsource : e.source ∈ ids <;>
    by_cases htarget : e.target ∈ ids <;> simp [hkind, hsource, htarget]

theorem levelError?_eq_none_iff (nodes : List Node) (edges : List Edge) :
    levelError? nodes edges = none ↔ LevelRules nodes edges := by
  have hids : firstRepeated? [] (nodes.map Node.id) = none ↔ (nodes.map Node.id).Nodup := by
    simp [firstRepeated?_eq_none_iff]
  unfold levelError?
  dsimp only
  split
  next id hrepeated =>
      have hnodup := mt hids.mpr (by simp [hrepeated])
      exact ⟨nofun, fun hrules => absurd hrules.ids hnodup⟩
  next hnone =>
      simp only [List.findSome?_eq_none_iff, edgeError?_eq_none_iff]
      exact ⟨fun hedges => ⟨hids.mp hnone, hedges⟩, fun hrules => hrules.edges⟩

theorem contains_iff (g : Graph) (id : String) :
    g.contains id = true ↔ id ∈ g.nodes.map Node.id := by
  simp [contains]

theorem isEntryOf_iff (iteration : String) (body : Graph) (e : Edge) :
    isEntryOf iteration body e = true ↔
      e.kind = .iterationStart ∧ e.source = iteration ∧ e.target ∈ body.nodes.map Node.id := by
  simp [isEntryOf, ← contains_iff, and_assoc]

theorem nodeError?_eq_none_iff (n : Node) : nodeError? n = none ↔ NodeRules n := by
  have houtputs : firstRepeated? [] (n.outputs.map Output.name) = none ↔
      (n.outputs.map Output.name).Nodup := by
    simp [firstRepeated?_eq_none_iff]
  unfold nodeError?
  split
  next hkind => exact ⟨nofun, fun hrules => absurd hrules.config hkind⟩
  next hkind =>
      have hconfig := Decidable.not_not.mp hkind
      split
      next name hrepeated =>
          have hnodup := mt houtputs.mpr (by simp [hrepeated])
          exact ⟨nofun, fun hrules => absurd hrules.outputs hnodup⟩
      next hnone =>
          have hnodup := houtputs.mp hnone
          split
          next hloop =>
              refine ⟨fun _ => ⟨hconfig, hnodup, fun loop hiteration => ?_⟩, fun _ => rfl⟩
              simp [Node.loop?, hiteration] at hloop
          next loop hloop =>
              have hiteration := Node.config_eq_of_loop? hloop
              simp only [Option.map_eq_none_iff, List.find?_eq_none, Bool.not_eq_true',
                Bool.not_eq_false, isEntryOf_iff]
              refine ⟨fun hentries => ⟨hconfig, hnodup, fun other hother => ?_⟩,
                fun hrules => hrules.entries loop hiteration⟩
              obtain rfl := Config.iteration.inj (hiteration.symm.trans hother)
              exact hentries

mutual

/-- The check succeeds exactly on the graphs that keep the rules on all levels. -/
theorem validate_eq_ok_iff : (g : Graph) → (g.validate = .ok () ↔ g.KeepsRules)
  | ⟨nodes, edges⟩ => by
      have hnodes := validateNodes_eq_ok_iff nodes
      have hlevel := levelError?_eq_none_iff nodes edges
      unfold validate
      cases herror : levelError? nodes edges with
      | some e =>
          rw [herror] at hlevel
          constructor
          · nofun
          · intro hrules
            cases hlevel.mpr hrules.level
      | none =>
          exact hnodes.trans
            ⟨fun h => ⟨hlevel.mp herror, by rwa [walk]⟩, fun h => by simpa [walk] using h.nodes⟩

theorem validateNodes_eq_ok_iff :
    (ns : List Node) → (validateNodes ns = .ok () ↔ ∀ n ∈ walkNodes ns, NodeKeepsRules n)
  | [] => by simp [validateNodes, walkNodes]
  | ⟨id, kind, title, config, inputs, outputs, presentation⟩ :: ns => by
      have hrest := validateNodes_eq_ok_iff ns
      have hbody := validateBody_eq_ok_iff config
      have hnode := nodeError?_eq_none_iff ⟨id, kind, title, config, inputs, outputs, presentation⟩
      rw [walkNodes, List.forall_mem_append, List.forall_mem_cons, validateNodes]
      split
      next e herror =>
          have hbroken := mt hnode.mpr (by simp [herror])
          exact ⟨nofun, fun hall => absurd hall.1.1.node hbroken⟩
      next hnone =>
          have hrules := hnode.mp hnone
          split
          next e herror =>
              have hbroken := mt hbody.mpr (by simp [herror])
              exact ⟨nofun, fun hall => absurd ⟨hall.1.1.body, hall.1.2⟩ hbroken⟩
          next hok =>
              obtain ⟨hlevel, hinside⟩ := hbody.mp hok
              exact ⟨fun hnodes => ⟨⟨⟨hrules, hlevel⟩, hinside⟩, hrest.mp hnodes⟩,
                fun hall => hrest.mpr hall.2⟩

theorem validateBody_eq_ok_iff :
    (config : Config) → (validateBody config = .ok () ↔
      (∀ loop, config = .iteration loop → LevelRules loop.body.nodes loop.body.edges) ∧
        ∀ n ∈ walkBody config, NodeKeepsRules n)
  | .iteration ⟨_, _, _, _, _, body⟩ => by
      have hbody := validate_eq_ok_iff body
      rw [validateBody, hbody]
      constructor
      · intro hrules
        refine ⟨fun loop hloop => ?_, hrules.nodes⟩
        obtain rfl := Config.iteration.inj hloop
        exact hrules.level
      · rintro ⟨hlevel, hnodes⟩
        exact ⟨hlevel _ rfl, hnodes⟩
  | .start | .finish _ | .llm _ | .code _ | .condition _ | .classifier _ => by
      simp [validateBody, walkBody]

end

end Graph

end WorkflowGraph
