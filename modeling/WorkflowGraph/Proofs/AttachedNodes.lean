/-
# The nodes of an assembled nesting

The decoders leave iteration nodes without a body, and the assembly puts the lists of a
nesting into them. The nodes that a walk of the graph meets are those of the nesting,
each iteration node with its body and its entry edges.
-/

import WorkflowGraph.Proofs.Decoding
import WorkflowGraph.Proofs.Reassembly
import WorkflowGraph.Proofs.Walk

namespace WorkflowGraph

namespace Nested

/-- A nesting of nodes as the decoders leave them, in which only iteration nodes hold a
list. -/
inductive IsFresh : Nested Node → Prop
  | nil : IsFresh .nil
  | leaf {n : Node} {rest : Nested Node} : n.IsFresh → IsFresh rest → IsFresh (.leaf n rest)
  | loop {n : Node} {inner rest : Nested Node} :
      n.IsFresh → n.kind = .iteration → IsFresh inner → IsFresh rest →
        IsFresh (.loop n inner rest)

theorem IsFresh.roots {f : Nested Node} (hfresh : f.IsFresh) : ∀ n ∈ f.roots, n.IsFresh := by
  induction hfresh with
  | nil => exact fun _ hn => absurd hn List.not_mem_nil
  | leaf hn _ ih => exact List.forall_mem_cons.mpr ⟨hn, ih⟩
  | loop hn _ _ _ _ ih => exact List.forall_mem_cons.mpr ⟨hn, ih⟩

theorem IsFresh.of_mem_levels {f : Nested Node} (hfresh : f.IsFresh) {level : Level}
    {e : Level × Nested Node} (he : e ∈ f.levels Node.id level) : e.2.IsFresh := by
  rcases List.mem_append.mp he with hin | hself
  · clear he
    induction hfresh with
    | nil => cases hin
    | leaf _ _ ih => exact ih hin
    | loop _ _ hinner _ ihInner ihRest =>
        rcases List.mem_append.mp hin with h | h
        · exact ihInner h
        · rcases List.mem_cons.mp h with rfl | hlater
          · exact hinner
          · exact ihRest hlater
  · obtain rfl := List.mem_singleton.mp hself
    exact hfresh

/-- The ids of the outermost list. -/
def ids (f : Nested Node) : List String :=
  f.roots.map Node.id

end Nested

namespace Node

theorem withBody_face (part : EdgePartition) (n : Node) (body : Graph) :
    (n.withBody part body).face = n.face := by
  unfold withBody reattach?
  cases n.config <;> rfl

/-- An iteration node of a decoder gets the body and the entry edges it is given. -/
theorem IsFresh.withBody_config {n : Node} (hfresh : n.IsFresh) (hkind : n.kind = .iteration)
    (part : EdgePartition) (body : Graph) :
    ∃ loop, (n.withBody part body).config = .iteration loop ∧ loop.body = body ∧
      loop.entryEdges = part.entryEdges n.id := by
  unfold withBody reattach?
  cases hconfig : n.config with
  | iteration loop => exact ⟨_, rfl, rfl, rfl⟩
  | _ =>
      have hother := hfresh.config
      rw [hkind, hconfig] at hother
      cases hother

end Node

namespace Assembly

open WorkflowGraph.Graph

variable (p : Platform) (part : EdgePartition)

/-- The node that a record without a lifted body is put together to. -/
def bare (n : Node) : Node :=
  if n.kind = .iteration then n.withBody part .empty else n

theorem walkNodes_attached_leaf {n : Node} (hn : n.IsFresh) (rest : Nested Node) :
    walkNodes (attached p part (.leaf n rest)) =
      bare part n :: walkNodes (attached p part rest) := by
  rw [attached, walkNodes_cons, bare]
  split
  next hkind =>
      obtain ⟨loop, hconfig, hbody, -⟩ := hn.withBody_config hkind part .empty
      rw [hconfig, walkBody_iteration, hbody]
      rfl
  next hkind =>
      rw [walkBody_of_ne (hn.config ▸ hkind)]
      rfl

theorem walkNodes_attached_loop {n : Node} (hn : n.IsFresh) (hkind : n.kind = .iteration)
    (inner rest : Nested Node) :
    walkNodes (attached p part (.loop n inner rest)) =
      n.withBody part (graph p part (.body n.id) inner) ::
        (walkNodes (attached p part inner) ++ walkNodes (attached p part rest)) := by
  obtain ⟨loop, hconfig, hbody, -⟩ := hn.withBody_config hkind part
    (graph p part (.body n.id) inner)
  rw [attached, walkNodes_cons, ← graph, hconfig, walkBody_iteration, hbody, walk_eq]
  rfl

/-- What the bodies leave unchanged can be read off the nesting: the walk meets its nodes in
document order. -/
theorem map_walkNodes_attached {β : Type} {φ : Node → β}
    (hφ : ∀ n body, φ (n.withBody part body) = φ n) {f : Nested Node} (hfresh : f.IsFresh) :
    (walkNodes (attached p part f)).map φ = f.members.map φ := by
  induction hfresh with
  | nil => rfl
  | @leaf n rest hn _ ih =>
      have hbare : φ (bare part n) = φ n := by
        unfold bare
        split
        · exact hφ n .empty
        · rfl
      rw [walkNodes_attached_leaf _ _ hn, Nested.members, List.map_cons, List.map_cons, ih, hbare]
  | loop hn hkind _ _ ihInner ihRest =>
      rw [walkNodes_attached_loop _ _ hn hkind, Nested.members, List.map_cons, List.map_cons,
        List.map_append, List.map_append, ihInner, ihRest, hφ]

end Assembly

end WorkflowGraph
