/-
# Graphs up to order

Two graphs are alike if every level has the same nodes in some order, compared through the
bodies of iteration nodes, and the same edges in some order. Links that are sorted alike but
listed in another order are put together to alike graphs, with the same findings; and so are
nestings with the same entries in another order, if no list repeats an id.
-/

import WorkflowGraph.Proofs.RootOrder
import WorkflowGraph.Proofs.Shells

namespace WorkflowGraph

mutual
/-- The same nodes in some order, compared through their bodies, and the same edges in some
order. -/
inductive Graph.Alike : Graph → Graph → Prop
  | intro {nodes order others : List Node} {edges edges' : List Edge} :
      List.Forall₂ Node.Alike nodes order → order.Perm others → edges.Perm edges' →
        Graph.Alike ⟨nodes, edges⟩ ⟨others, edges'⟩

/-- The same node, but for the order inside its body and the order of its entry edges. -/
inductive Node.Alike : Node → Node → Prop
  | same (n : Node) : Node.Alike n n
  | loop (n : Node) {loop : Loop} {entries : List Edge} {body : Graph} :
      n.config = .iteration loop → loop.entryEdges.Perm entries → Graph.Alike loop.body body →
        Node.Alike n
          { n with config := .iteration { loop with entryEdges := entries, body := body } }
end

theorem Graph.Alike.refl (graph : Graph) : graph.Alike graph := by
  obtain ⟨nodes, edges⟩ := graph
  exact .intro (List.forall₂_same.mpr fun n _ => .same n) (.refl _) (.refl _)

/-- Two ways to sort links put the same links in each class, in some order. -/
structure EdgePartition.Reorders (part other : EdgePartition) : Prop where
  onLevel : ∀ level, (part.onLevel level).Perm (other.onLevel level)
  entryEdges : ∀ owner, (part.entryEdges owner).Perm (other.entryEdges owner)

namespace Assembly

variable {p : Platform} {part other : EdgePartition} {level : Level}

/-- Where no id is repeated, the last node with an id is the only one. -/
theorem lastNode?_eq_some_iff {nodes : List Node} (hnodup : (nodes.map Node.id).Nodup)
    {id : String} {n : Node} : lastNode? nodes id = some n ↔ n ∈ nodes ∧ n.id = id := by
  constructor
  · intro hn
    exact ⟨List.mem_reverse.mp (List.mem_of_find?_eq_some hn), by simpa using List.find?_some hn⟩
  · rintro ⟨hn, rfl⟩
    cases hfound : lastNode? nodes n.id with
    | none =>
        have hnone := List.find?_eq_none.mp hfound n (List.mem_reverse.mpr hn)
        simp at hnone
    | some m =>
        have hm := List.mem_reverse.mp (List.mem_of_find?_eq_some hfound)
        have hid : m.id = n.id := by simpa using List.find?_some hfound
        rw [List.inj_on_of_nodup_map hnodup hm hn hid]

theorem lastNode?_perm {nodes others : List Node} (hperm : nodes.Perm others)
    (hnodup : (nodes.map Node.id).Nodup) : lastNode? nodes = lastNode? others := by
  have hnodup' := (hperm.map Node.id).nodup_iff.mp hnodup
  funext id
  apply Option.ext
  intro n
  rw [lastNode?_eq_some_iff hnodup, lastNode?_eq_some_iff hnodup', hperm.mem_iff]

theorem edgeFindings_shell (e : Edge) (source : Node) :
    edgeFindings e source.shell = edgeFindings e source := by
  have hclasses : e.sourceHandle.classesExceeded? source.shell =
      e.sourceHandle.classesExceeded? source := by
    cases hhandle : e.sourceHandle <;> cases hconfig : source.config <;>
      simp [Handle.classesExceeded?, Node.shell, Config.shell, hconfig]
  rw [edgeFindings, edgeFindings, hclasses]

/-- The links of a level with the shells of the nodes that they leave. -/
theorem sourced_map_shell (part : EdgePartition) (level : Level) (nodes : List Node) :
    sourced part level (nodes.map Node.shell) =
      (sourced part level nodes).map fun entry => (entry.1, entry.2.shell) := by
  unfold sourced
  rw [List.map_filterMap]
  apply List.filterMap_congr
  intro l _
  simp [lastNode?_map_shell, Option.map_map, Function.comp_def]

theorem toEdge_shell (p : Platform) (l : Link) (source : Node) :
    l.toEdge p source.shell = l.toEdge p source := by
  simp [Link.toEdge, Handle.ofSpelling_shell]

/-- The findings for a level depend on the shells of its nodes. -/
theorem levelFindings_map_shell (p : Platform) (part : EdgePartition) (level : Level)
    (nodes : List Node) :
    levelFindings p part level (nodes.map Node.shell) = levelFindings p part level nodes := by
  rw [levelFindings, sourced_map_shell, List.flatMap_map]
  simp only [toEdge_shell, edgeFindings_shell]
  rfl

/-- The bodies of its loops play no part in the edges of a level. -/
theorem edges_attached (p : Platform) (part other : EdgePartition) (level : Level)
    (f : Nested Node) :
    edges p part level (attached p other f) = edges p part level f.roots := by
  rw [← edges_map_shell, map_shell_attached, edges_map_shell]

theorem levelFindings_attached (p : Platform) (part other : EdgePartition) (level : Level)
    (f : Nested Node) :
    levelFindings p part level (attached p other f) = levelFindings p part level f.roots := by
  rw [← levelFindings_map_shell, map_shell_attached, levelFindings_map_shell]

section Sorted

variable (hlinks : (part.onLevel level).Perm (other.onLevel level)) {nodes others : List Node}
  (hnodes : lastNode? nodes = lastNode? others)

include hlinks hnodes

theorem sourced_perm : (sourced part level nodes).Perm (sourced other level others) := by
  rw [sourced, sourced, hnodes]
  exact hlinks.filterMap _

theorem edges_perm : (edges p part level nodes).Perm (edges p other level others) :=
  (sourced_perm hlinks hnodes).map _

theorem levelFindings_perm :
    (levelFindings p part level nodes).Perm (levelFindings p other level others) :=
  (sourced_perm hlinks hnodes).flatMap_right _

end Sorted

/-- Alike bodies and the same entry edges make alike iteration nodes. -/
theorem alike_withBody {n : Node} (hn : n.IsFresh) (hkind : n.kind = .iteration)
    (hentries : (part.entryEdges n.id).Perm (other.entryEdges n.id)) {body body' : Graph}
    (hbody : body.Alike body') : (n.withBody part body).Alike (n.withBody other body') := by
  cases hconfig : n.config with
  | iteration loop =>
      have halike := @Node.Alike.loop (n.withBody part body)
        { loop with body := body, entryEdges := part.entryEdges n.id } (other.entryEdges n.id)
        body' (by simp [Node.withBody, Node.reattach?, hconfig]) hentries hbody
      simpa [Node.withBody, Node.reattach?, hconfig] using halike
  | _ =>
      have hother := hn.config
      rw [hkind, hconfig] at hother
      cases hother

/-- A nesting is put together to alike nodes whatever the order of its links. -/
theorem attached_alike (hsorted : part.Reorders other) {f : Nested Node} (hfresh : f.IsFresh) :
    List.Forall₂ Node.Alike (attached p part f) (attached p other f) := by
  induction hfresh with
  | nil => exact .nil
  | @leaf n rest hn _ ih =>
      refine .cons ?_ ih
      split
      next hkind => exact alike_withBody hn hkind (hsorted.entryEdges n.id) (.refl _)
      next => exact .same n
  | @loop n inner rest hn hkind _ _ ihInner ihRest =>
      refine .cons (alike_withBody hn hkind (hsorted.entryEdges n.id) ?_) ihRest
      refine .intro ihInner (.refl _) ?_
      rw [edges_attached, edges_attached]
      exact edges_perm (hsorted.onLevel _) rfl

theorem innerFindings_perm (hsorted : part.Reorders other) (f : Nested Node) :
    (innerFindings p part f).Perm (innerFindings p other f) := by
  induction f with
  | nil => exact .refl _
  | leaf n rest ih => exact ih
  | loop n inner rest ihInner ihRest =>
      rw [innerFindings, innerFindings, levelFindings_attached, levelFindings_attached]
      exact (ihInner.append (levelFindings_perm (hsorted.onLevel _) rfl)).append ihRest

end Assembly

namespace Nested.Reorders

open Assembly

variable {p : Platform} {part other : EdgePartition} {f f' : Nested Node}
  (hsame : f.Reorders f')

include hsame

theorem attached_perm : (attached p part f).Perm (attached p part f') :=
  hsame.perm (attached p part)
    (fun n => [if n.kind = .iteration then n.withBody part .empty else n])
    (fun n inner => [n.withBody part
      ⟨attached p part inner, edges p part (.body n.id) (attached p part inner)⟩])
    rfl (fun _ _ => rfl) fun _ _ _ => rfl

theorem innerFindings_perm : (innerFindings p part f).Perm (innerFindings p part f') :=
  hsame.perm (innerFindings p part) (fun _ => [])
    (fun n inner => innerFindings p part inner ++
      levelFindings p part (.body n.id) (attached p part inner))
    rfl (fun _ _ => rfl) fun _ _ _ => rfl

/-- Nestings with the same entries in another order are put together to alike graphs, also if
their links come in another order. -/
theorem graph_alike (hsorted : part.Reorders other) (hfresh : f.IsFresh) (hids : f.ids.Nodup) :
    (graph p part .root f).Alike (graph p other .root f') := by
  refine .intro (attached_alike hsorted hfresh) hsame.attached_perm ?_
  rw [edges_attached, edges_attached]
  exact edges_perm (hsorted.onLevel _) (lastNode?_perm hsame.roots_perm hids)

/-- They have the same findings. -/
theorem findings_perm (hsorted : part.Reorders other) (hids : f.ids.Nodup) :
    (innerFindings p part f ++ levelFindings p part .root (attached p part f)).Perm
      (innerFindings p other f' ++ levelFindings p other .root (attached p other f')) := by
  rw [levelFindings_attached, levelFindings_attached]
  exact ((Assembly.innerFindings_perm hsorted f).trans hsame.innerFindings_perm).append
    (levelFindings_perm (hsorted.onLevel _) (lastNode?_perm hsame.roots_perm hids))

end Nested.Reorders

end WorkflowGraph
