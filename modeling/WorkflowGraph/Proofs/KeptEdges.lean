/-
# The edges that are kept

A node is placed on a level exactly if the list of that level holds it, so the links
that are sorted to a level have both ends among its nodes, and the entry edges of a loop
end in its body. The assembly asks for the node that a link leaves, and always finds it.
-/

import Mathlib.Data.List.Nodup
import WorkflowGraph.Proofs.AssembledGraph

namespace WorkflowGraph

namespace Lifted

variable {g : Registry} {d : Document} {l : Lifted} {t : Nested Record} {f : Nested Node}

/-- The insertions that place the nodes and the loop-start nodes of a lifted document. -/
def steps (l : Lifted) : List Placement.Step :=
  l.harvest.placed.map (fun entry => .node entry.1 entry.2) ++
    l.harvest.starts.map fun entry => .start entry.1 entry.2

theorem placement_eq (l : Lifted) : l.placement = .ofSteps l.steps := by
  simp only [placement, Placement.ofSteps, steps, List.foldl_append, List.foldl_map]
  rfl

/-- A node is placed where the nesting holds it. -/
theorem Mirrors.node_mem_steps_iff (hmirrors : l.Mirrors g d t f) {id : String}
    {level : Level} : .node id level ∈ l.steps ↔
      ∃ e ∈ f.levels Node.id .root, e.1 = level ∧ id ∈ e.2.ids := by
  have hplaced : .node id level ∈ l.steps ↔ (id, level) ∈ l.harvest.placed := by
    simp [steps]
  rw [hplaced, hmirrors.placed, Lift.mem_places]
  rfl

end Lifted

namespace Assembly

/-- Sorted links that arrive in lists of a nesting: the links of a level on that level,
and the entry edges of an iteration node in its body. -/
structure Arrives (part : EdgePartition) (f : Nested Node) : Prop where
  internal : ∀ level, ∀ l ∈ part.onLevel level,
    ∃ e ∈ f.levels Node.id .root, e.1 = level ∧ l.target ∈ e.2.ids
  entries : ∀ owner, ∀ edge ∈ part.entryEdges owner,
    edge.kind = .iterationStart ∧ edge.source = owner ∧
      ∃ e ∈ f.levels Node.id .root, e.1 = .body owner ∧ edge.target ∈ e.2.ids

end Assembly

namespace Conversion

open EdgePartition

variable {g : Registry} {d : Document} {l : Lifted} {t : Nested Record} {f : Nested Node}

theorem partition_eq (p : Platform) (l : Lifted) :
    partition p l = .ofLinks p (.ofSteps l.steps) l.harvest.links := by
  rw [partition, l.placement_eq]

theorem sound_partition (p : Platform) (l : Lifted) :
    Sound l.steps l.harvest.links (partition p l) := by
  rw [partition_eq]
  exact sound_ofLinks p l.steps l.harvest.links

theorem sorts_partition (p : Platform) (l : Lifted) :
    Sorts (classOf p l.placement) l.harvest.links (partition p l) :=
  sorts_ofLinks p l.harvest.links l.placement

/-- The links of a lifted document arrive in its nesting. -/
theorem arrives_clean {p : Platform} (hmirrors : l.Mirrors g d t f) (present : List String) :
    Assembly.Arrives (partition p l) (f.clean present) := by
  have hplaced : ∀ {id level}, .node id level ∈ l.steps →
      ∃ e ∈ (f.clean present).levels Node.id .root, e.1 = level ∧ id ∈ e.2.ids := by
    intro id level hnode
    obtain ⟨e, he, hlevel, hid⟩ := hmirrors.node_mem_steps_iff.mp hnode
    refine ⟨(e.1, e.2.clean present), ?_, hlevel, ?_⟩
    · rw [Nested.levels_clean]
      exact List.mem_map_of_mem he
    · rwa [Nested.ids_clean]
  have hsound := sound_partition p l
  refine ⟨fun level link hlink => hplaced (hsound.internal level link hlink).2, ?_⟩
  intro owner edge hedge
  obtain ⟨hsource, hkind, htarget⟩ := hsound.entries owner edge hedge
  exact ⟨hkind, hsource, hplaced htarget⟩

namespace Rebuilt

variable (hrebuilt : Rebuilt g d l t f)

include hrebuilt

/-- A rebuilt document has one list for each of its levels. -/
theorem eq_of_level_eq {e other : Level × Nested Node} (he : e ∈ f.levels Node.id .root)
    (hother : other ∈ f.levels Node.id .root) (hlevel : e.1 = other.1) : e = other :=
  List.inj_on_of_nodup_map hrebuilt.levels he hother hlevel

/-- A link that is kept on a level has both ends in the list of that level. -/
theorem ends_mem_ids {p : Platform} {e : Level × Nested Node}
    (he : e ∈ f.levels Node.id .root) {link : Link}
    (hlink : link ∈ (partition p l).onLevel e.1) :
    link.source ∈ e.2.ids ∧ link.target ∈ e.2.ids := by
  obtain ⟨hsource, htarget⟩ := (sound_partition p l).internal e.1 link hlink
  obtain ⟨from', hfrom, hlevelFrom, hidFrom⟩ := hrebuilt.mirrors.node_mem_steps_iff.mp hsource
  obtain ⟨to', hto, hlevelTo, hidTo⟩ := hrebuilt.mirrors.node_mem_steps_iff.mp htarget
  obtain rfl := hrebuilt.eq_of_level_eq hfrom he hlevelFrom
  obtain rfl := hrebuilt.eq_of_level_eq hto he hlevelTo
  exact ⟨hidFrom, hidTo⟩

/-- A link that is kept on a level is kept on the level of some list. -/
theorem exists_level {p : Platform} {level : Level} {link : Link}
    (hlink : link ∈ (partition p l).onLevel level) :
    level ∈ (f.levels Node.id .root).map Prod.fst := by
  obtain ⟨hsource, -⟩ := (sound_partition p l).internal level link hlink
  obtain ⟨e, he, rfl, -⟩ := hrebuilt.mirrors.node_mem_steps_iff.mp hsource
  exact List.mem_map_of_mem he

/-- An entry edge leads from an iteration node into the list inside it. -/
theorem exists_owner {p : Platform} {owner : String} {edge : Edge}
    (hedge : edge ∈ (partition p l).entryEdges owner) :
    (∃ e ∈ f.levels Node.id .root, e.1 = .body owner ∧ edge.target ∈ e.2.ids) ∧
      owner ∈ (f.levels Node.id .root).flatMap fun e => e.2.iterationIds := by
  obtain ⟨-, -, htarget⟩ := (sound_partition p l).entries owner edge hedge
  obtain ⟨e, he, hlevel, hid⟩ := hrebuilt.mirrors.node_mem_steps_iff.mp htarget
  exact ⟨⟨e, he, hlevel, hid⟩, Nested.owner_mem_iterationIds he hlevel⟩

end Rebuilt

end Conversion

namespace Assembly

variable (p : Platform) (part : EdgePartition)

/-- The filter by source keeps every link that leaves a node of the level. -/
theorem map_fst_sourced (level : Level) (nodes : List Node)
    (hsources : ∀ l ∈ part.onLevel level, l.source ∈ nodes.map Node.id) :
    (sourced part level nodes).map Prod.fst = part.onLevel level := by
  unfold sourced
  revert hsources
  induction part.onLevel level with
  | nil => exact fun _ => rfl
  | cons l ls ih =>
      intro hsources
      obtain ⟨hhere, hrest⟩ := List.forall_mem_cons.mp hsources
      obtain ⟨n, hn⟩ :=
        Option.isSome_iff_exists.mp ((isSome_lastNode?_iff nodes l.source).mpr hhere)
      rw [List.filterMap_cons_some (by rw [hn]; rfl), List.map_cons, ih hrest]

end Assembly

end WorkflowGraph
