/-
# No level is used twice

The assembly follows the ids of iteration nodes into the table of levels. Nothing keeps
these ids in order: an iteration node may have the id of the level on which it lies, of a
level around it, or of another iteration node, so that they lead in a circle. The assembly
ends nevertheless, because a level leaves the table before its nodes have their turn, and
for the same reason no node of the table gets two places in the graph.
-/

import Mathlib.Data.List.Flatten
import Mathlib.Data.List.Nodup
import Mathlib.Data.List.Perm.Subperm
import WorkflowGraph.Proofs.Reassembly
import WorkflowGraph.Proofs.Walk

namespace WorkflowGraph

namespace LevelTable

/-- All nodes of a table. -/
def stored (t : LevelTable) : List Node :=
  t.flatMap Prod.snd

/-- The bodies of the iteration nodes are still empty, as the decoders leave them. -/
def BodiesEmpty (t : LevelTable) : Prop :=
  ∀ e ∈ t, ∀ n ∈ e.2, ∀ loop ∈ n.loop?, loop.body.nodes = []

instance (t : LevelTable) : Decidable t.BodiesEmpty :=
  inferInstanceAs (Decidable (∀ e ∈ t, ∀ n ∈ e.2, ∀ loop ∈ n.loop?, loop.body.nodes = []))

theorem BodiesEmpty.of_mem_stored {t : LevelTable} (hempty : t.BodiesEmpty) {n : Node}
    (hn : n ∈ t.stored) : ∀ loop ∈ n.loop?, loop.body.nodes = [] := by
  obtain ⟨e, he, hmem⟩ := List.mem_flatMap.mp hn
  exact hempty e he n hmem

theorem lookup_without_eq_some_iff {t : LevelTable} {level other : Level} {ns : List Node} :
    (t.without level).lookup other = some ns ↔ other ≠ level ∧ t.lookup other = some ns := by
  rw [lookup_without]
  split <;> simp_all

theorem stored_without_sublist (t : LevelTable) (level : Level) :
    (t.without level).stored.Sublist t.stored :=
  List.filter_sublist.flatMap Prod.snd

/-- What is taken out of a table and what is left are no more than there was. -/
theorem subperm_stored (t : LevelTable) (level : Level) :
    (t.nodes level ++ (t.without level).stored).Subperm t.stored := by
  induction t with
  | nil => exact List.Subperm.refl _
  | cons entry t ih =>
      obtain ⟨key, ns⟩ := entry
      by_cases hkey : key = level
      · subst hkey
        have hnodes : nodes ((key, ns) :: t) key = ns := by simp [nodes]
        have hleft : without ((key, ns) :: t) key = without t key := by simp [without]
        rw [hnodes, hleft]
        exact ((stored_without_sublist t key).append_left ns).subperm
      · have hnodes : nodes ((key, ns) :: t) level = nodes t level := by
          simp [nodes, List.lookup_cons, beq_eq_false_iff_ne.mpr (Ne.symm hkey)]
        have hleft : without ((key, ns) :: t) level = (key, ns) :: without t level := by
          simp [without, hkey]
        rw [hnodes, hleft]
        have hmoved := List.perm_append_comm_assoc (nodes t level) ns (without t level).stored
        exact hmoved.subperm.trans ((List.subperm_append_left ns).mpr ih)

end LevelTable

namespace Node

/-- An iteration node without its body and its entry edges; any other node as it is. -/
def emptied (n : Node) : Node :=
  (n.reattach? .empty []).getD n

@[simp] theorem emptied_withBody (part : EdgePartition) (n : Node) (body : Graph) :
    (n.withBody part body).emptied = n.emptied := by
  unfold withBody emptied reattach?
  cases hconfig : n.config <;> simp [hconfig]

end Node

namespace Assembly

open WorkflowGraph.Graph

variable {p : Platform} {part : EdgePartition}

/-- The course of the assembly for the nodes of a list, with no bound on its depth. An
iteration node takes the level of its id out of the table, if the level is still there, and
the nodes of that level have their turn before the next node of the list. The nesting shows
which list went into which node, and the second table is what is left. -/
inductive Takes : LevelTable → List Node → Nested Node → LevelTable → Prop
  | nil {t : LevelTable} : Takes t [] .nil t
  | plain {t rest : LevelTable} {n : Node} {ns : List Node} {f : Nested Node} :
      n.kind ≠ .iteration → Takes t ns f rest → Takes t (n :: ns) (.leaf n f) rest
  | absent {t rest : LevelTable} {n : Node} {ns : List Node} {f : Nested Node} :
      n.kind = .iteration → t.lookup (.body n.id) = none → Takes t ns f rest →
        Takes t (n :: ns) (.leaf n f) rest
  | taken {t between rest : LevelTable} {n : Node} {inside ns : List Node}
      {inner f : Nested Node} :
      n.kind = .iteration → t.lookup (.body n.id) = some inside →
        Takes (t.without (.body n.id)) inside inner between → Takes between ns f rest →
          Takes t (n :: ns) (.loop n inner f) rest

/-- The assembly comes to an end for every list of nodes and every table: the table gets
shorter with every level that is entered, and stays so for the nodes that follow. -/
theorem exists_takes (size : Nat) : ∀ ns, ∀ t : LevelTable, t.length ≤ size →
    ∃ f rest, Takes t ns f rest ∧ rest.length ≤ t.length := by
  -- The nodes of a level that is taken need not be in the list, but for them the table is
  -- shorter. For the rest of the list it is only no longer, hence the second induction.
  induction size using Nat.strongRecOn with
  | ind size ih =>
      intro ns
      induction ns with
      | nil => exact fun t _ => ⟨.nil, t, .nil, Nat.le_refl _⟩
      | cons n ns ihRest =>
          intro t ht
          by_cases hkind : n.kind = .iteration
          · cases hlookup : t.lookup (.body n.id) with
            | none =>
                obtain ⟨f, rest, hf, hlength⟩ := ihRest t ht
                exact ⟨.leaf n f, rest, .absent hkind hlookup hf, hlength⟩
            | some inside =>
                have hshorter := LevelTable.length_without_lt hlookup
                obtain ⟨inner, between, hinner, hbetween⟩ :=
                  ih _ (Nat.lt_of_lt_of_le hshorter ht) inside _ (Nat.le_refl _)
                obtain ⟨f, rest, hf, hlength⟩ := ihRest between (by omega)
                exact ⟨.loop n inner f, rest, .taken hkind hlookup hinner hf, by omega⟩
          · obtain ⟨f, rest, hf, hlength⟩ := ihRest t ht
            exact ⟨.leaf n f, rest, .plain hkind hf, hlength⟩

section Course

variable {t rest : LevelTable} {ns : List Node} {f : Nested Node}

theorem Takes.roots_eq (htakes : Takes t ns f rest) : f.roots = ns := by
  induction htakes with
  | nil => rfl
  | plain _ _ ih => rw [Nested.roots, ih]
  | absent _ _ _ ih => rw [Nested.roots, ih]
  | taken _ _ _ _ _ ih => rw [Nested.roots, ih]

theorem Takes.leftover_eq (htakes : Takes t ns f rest) : leftover t f = rest := by
  induction htakes with
  | nil => rfl
  | plain hkind _ ih => rw [leftover, if_neg hkind, ih]
  | absent hkind hnone _ ih => rw [leftover, if_pos hkind, LevelTable.without_eq_self hnone, ih]
  | taken _ _ _ _ ihInner ihRest => rw [leftover, ihInner, ihRest]

/-- The table serves the nesting that the course of the assembly makes of it. -/
theorem Takes.serves (htakes : Takes t ns f rest) : Serves Eq t f := by
  induction htakes with
  | nil => exact .nil
  | plain hkind _ ih => exact .plain hkind ih
  | absent hkind hnone _ ih =>
      refine .bare hkind ?_ ?_
      · simp [LevelTable.nodes, hnone]
      · rwa [LevelTable.without_eq_self hnone]
  | taken hkind hfound hinner _ ihInner ihRest =>
      refine .loop hkind ?_ ihInner ?_
      · simp [LevelTable.nodes, hfound, hinner.roots_eq]
      · rwa [hinner.leftover_eq]

/-- Levels that went into a node are gone, and the others are still there. -/
theorem Takes.lookup_rest_eq_some_iff (htakes : Takes t ns f rest) {level : Level}
    {found : List Node} : rest.lookup level = some found ↔
      level ∉ (f.bodies Node.id).map Prod.fst ∧ t.lookup level = some found := by
  induction htakes with
  | nil => simp [Nested.bodies]
  | plain _ _ ih => exact ih
  | absent _ _ _ ih => exact ih
  | taken _ _ _ _ ihInner ihRest =>
      rw [ihRest, ihInner, LevelTable.lookup_without_eq_some_iff, Nested.bodies, List.map_append,
        List.map_cons, List.mem_append, List.mem_cons]
      tauto

/-- Each list inside a node is a level of the table that the course started with. -/
theorem Takes.lookup_of_mem (htakes : Takes t ns f rest) :
    ∀ e ∈ f.bodies Node.id, t.lookup e.1 = some e.2.roots := by
  induction htakes with
  | nil => nofun
  | plain _ _ ih => exact ih
  | absent _ _ _ ih => exact ih
  | @taken t between rest n inside ns inner f _ hfound hinner _ ihInner ihRest =>
      rw [Nested.bodies, List.forall_mem_append, List.forall_mem_cons]
      refine ⟨fun e he => ?_, ?_, fun e he => ?_⟩
      · exact (LevelTable.lookup_without_eq_some_iff.mp (ihInner e he)).2
      · rw [hfound, hinner.roots_eq]
      · have hleft := (hinner.lookup_rest_eq_some_iff.mp (ihRest e he)).2
        exact (LevelTable.lookup_without_eq_some_iff.mp hleft).2

/-- No level goes into two nodes: when a level is looked up again, it is gone. -/
theorem Takes.nodup_levels (htakes : Takes t ns f rest) :
    ((f.bodies Node.id).map Prod.fst).Nodup := by
  induction htakes with
  | nil => exact .nil
  | plain _ _ ih => exact ih
  | absent _ _ _ ih => exact ih
  | @taken t between rest n inside ns inner f _ _ hinner hrest ihInner ihRest =>
      have hwithin : ∀ level ∈ (inner.bodies Node.id).map Prod.fst, level ≠ .body n.id := by
        intro level hlevel
        obtain ⟨e, he, rfl⟩ := List.mem_map.mp hlevel
        exact (LevelTable.lookup_without_eq_some_iff.mp (hinner.lookup_of_mem e he)).1
      have hlater : ∀ level ∈ (f.bodies Node.id).map Prod.fst,
          level ≠ .body n.id ∧ level ∉ (inner.bodies Node.id).map Prod.fst := by
        intro level hlevel
        obtain ⟨e, he, rfl⟩ := List.mem_map.mp hlevel
        obtain ⟨hnew, hleft⟩ := hinner.lookup_rest_eq_some_iff.mp (hrest.lookup_of_mem e he)
        exact ⟨(LevelTable.lookup_without_eq_some_iff.mp hleft).1, hnew⟩
      rw [Nested.bodies, List.map_append, List.map_cons, List.nodup_append', List.nodup_cons]
      refine ⟨ihInner, ⟨fun hagain => (hlater _ hagain).1 rfl, ihRest⟩, ?_⟩
      intro level hin hout
      rcases List.mem_cons.mp hout with hsame | hafter
      · exact hwithin level hin hsame
      · exact (hlater level hafter).2 hin

/-- One node more in the nesting is one node less in the list and the table. -/
theorem Takes.subperm (htakes : Takes t ns f rest) :
    (f.members ++ rest.stored).Subperm (ns ++ t.stored) := by
  induction htakes with
  | nil => exact List.Subperm.refl _
  | plain _ _ ih => exact (List.subperm_cons _).mpr ih
  | absent _ _ _ ih => exact (List.subperm_cons _).mpr ih
  | @taken t between rest n inside ns inner f _ hfound _ _ ihInner ihRest =>
      -- The nodes of the level leave the table before they are counted in the nesting.
      have htaken := t.subperm_stored (.body n.id)
      rw [LevelTable.nodes, hfound, Option.getD_some] at htaken
      have hlater := (List.subperm_append_left inner.members).mpr ihRest
      have hmoved := List.perm_append_comm_assoc inner.members ns between.stored
      have hinside := (List.subperm_append_left ns).mpr (ihInner.trans htaken)
      rw [Nested.members, List.cons_append, List.cons_append, List.subperm_cons, List.append_assoc]
      exact hlater.trans (hmoved.subperm.trans hinside)

end Course

/-- The nodes inside a node that was given a body are those of the body. -/
theorem walkBody_withBody_sublist (part : EdgePartition) (n : Node) (body : Graph) :
    (walkBody (n.withBody part body).config).Sublist body.walk := by
  unfold Node.withBody Node.reattach?
  cases hconfig : n.config with
  | iteration loop =>
      rw [Option.getD_some, walkBody_iteration]
  | _ => simp [hconfig, walkBody]

theorem walkBody_eq_nil {n : Node} (hempty : ∀ loop ∈ n.loop?, loop.body.nodes = []) :
    walkBody n.config = [] := by
  cases hconfig : n.config with
  | iteration loop =>
      have hnone := hempty loop (by simp [Node.loop?, hconfig])
      rw [walkBody_iteration, walk_eq, hnone, walkNodes]
  | _ => simp only [walkBody]

/-- The graph of a nesting shows its members in their order, each at most once. -/
theorem walkNodes_attached_sublist {f : Nested Node}
    (hempty : ∀ n ∈ f.members, ∀ loop ∈ n.loop?, loop.body.nodes = []) :
    ((walkNodes (attached p part f)).map Node.emptied).Sublist (f.members.map Node.emptied) := by
  induction f with
  | nil => exact List.nil_sublist _
  | leaf n rest ih =>
      obtain ⟨hn, hrest⟩ := List.forall_mem_cons.mp hempty
      rw [attached, walkNodes_cons, Nested.members]
      split
      next =>
          have hnone : walkBody (n.withBody part .empty).config = [] :=
            List.sublist_nil.mp (walkBody_withBody_sublist part n .empty)
          rw [hnone, List.singleton_append, List.map_cons, List.map_cons, Node.emptied_withBody]
          exact (ih hrest).cons_cons _
      next =>
          rw [walkBody_eq_nil hn]
          exact (ih hrest).cons_cons _
  | loop n inner rest ihInner ihRest =>
      obtain ⟨-, hinside⟩ := List.forall_mem_cons.mp hempty
      obtain ⟨hinner, hrest⟩ := List.forall_mem_append.mp hinside
      have hbody := (walkBody_withBody_sublist part n
        (graph p part (.body n.id) inner)).map Node.emptied
      rw [walk_eq] at hbody
      rw [attached, walkNodes_cons, Nested.members, List.cons_append, List.map_cons,
        List.map_cons, List.map_append, List.map_append, Node.emptied_withBody]
      exact ((hbody.trans (ihInner hinner)).append (ihRest hrest)).cons_cons _

/-- An assembly from the root of a table that uses no level twice. The nesting shows which
list of the table went into which iteration node, and `rest` is what is left of the table. -/
structure UsesLevelsOnce (p : Platform) (part : EdgePartition) (t : LevelTable)
    (f : Nested Node) (rest : LevelTable) : Prop where
  course : Takes (t.without .root) (t.nodes .root) f rest
  result : ofLevel p part .root t = ⟨graph p part .root f,
    innerFindings p part f ++ levelFindings p part .root (attached p part f), rest⟩
  levels : ((f.levels Node.id .root).map Prod.fst).Nodup
  lists : ∀ e ∈ f.levels Node.id .root, t.nodes e.1 = e.2.roots
  members : f.members.Subperm t.stored
  walk : ((ofLevel p part .root t).value.walk.map Node.emptied).Sublist
    (f.members.map Node.emptied)
  count : (ofLevel p part .root t).value.nodeCount ≤ t.stored.length

/-- Whatever ids the iteration nodes of a table have, the assembly comes to an end. It takes
no level out of the table twice, so that each node of the table has at most one place in the
graph, and the graph has no more nodes than the table. -/
theorem ofLevel_usesLevelsOnce (p : Platform) (part : EdgePartition) {t : LevelTable}
    (hempty : t.BodiesEmpty) : ∃ f rest, UsesLevelsOnce p part t f rest := by
  obtain ⟨f, rest, htakes, -⟩ := exists_takes _ (t.nodes .root) (t.without .root) (Nat.le_refl _)
  have hresult : ofLevel p part .root t = ⟨graph p part .root f,
      innerFindings p part f ++ levelFindings p part .root (attached p part f), rest⟩ := by
    rw [ofLevel_of_serves htakes.roots_eq.symm htakes.serves, htakes.leftover_eq]
  have hlists : ∀ e ∈ f.bodies Node.id, t.nodes e.1 = e.2.roots := by
    intro e he
    have hfound := (LevelTable.lookup_without_eq_some_iff.mp (htakes.lookup_of_mem e he)).2
    rw [LevelTable.nodes, hfound, Option.getD_some]
  have hmembers : f.members.Subperm t.stored := by
    have hall := htakes.subperm.trans (t.subperm_stored .root)
    exact (List.sublist_append_left _ _).subperm.trans hall
  have hwalk : ((ofLevel p part .root t).value.walk.map Node.emptied).Sublist
      (f.members.map Node.emptied) := by
    rw [hresult, walk_eq]
    exact walkNodes_attached_sublist fun n hn => hempty.of_mem_stored (hmembers.subset hn)
  refine ⟨f, rest, htakes, hresult, ?_, ?_, hmembers, hwalk, ?_⟩
  · rw [Nested.levels, List.map_append, List.nodup_append']
    refine ⟨htakes.nodup_levels, List.nodup_singleton _, fun level hlevel hroot => ?_⟩
    obtain rfl := List.mem_singleton.mp hroot
    exact f.root_not_mem_bodies Node.id hlevel
  · rw [Nested.levels, List.forall_mem_append, List.forall_mem_singleton]
    exact ⟨hlists, htakes.roots_eq.symm⟩
  · have hfewer := hwalk.length_le
    rw [List.length_map, List.length_map] at hfewer
    exact Nat.le_trans hfewer hmembers.length_le

/-- Iteration nodes whose ids lead in a circle: two on the root share an id, and the level of
that id holds a third one with its own id and a fourth one that leads back. The last level is
that of no iteration node. -/
def circle : LevelTable :=
  let loop (id : String) : Node := .ofConfig id id (.iteration .default)
  let step (id : String) : Node := .ofConfig id id .start
  [(.root, [loop "a", loop "a", step "x"]), (.body "a", [loop "a", step "y", loop "b"]),
    (.body "b", [loop "a", step "z"]), (.body "c", [step "y"])]

/-- A link inside the circle, and an entry edge into it. -/
def circleLinks : EdgePartition :=
  ⟨[(.body "a", ⟨"", "a", none, "y", none⟩)],
    [("b", Link.toEntryEdge ⟨"", "start", none, "z", none⟩ "b")], [], []⟩

/-- The graph holds the eight nodes of three levels, and the fourth level is left. -/
theorem ofLevel_usesLevelsOnce_circle :
    circle.BodiesEmpty ∧ ∃ f rest, UsesLevelsOnce .dify circleLinks circle f rest ∧
      (graph .dify circleLinks .root f).nodeCount = 8 ∧ rest.map Prod.fst = [.body "c"] := by
  have hempty : circle.BodiesEmpty := by decide +kernel
  obtain ⟨f, rest, honce⟩ := ofLevel_usesLevelsOnce .dify circleLinks hempty
  have hgraph : graph .dify circleLinks .root f = (ofLevel .dify circleLinks .root circle).value :=
    congrArg Assembled.value honce.result.symm
  have hrest : rest = (ofLevel .dify circleLinks .root circle).rest :=
    congrArg Assembled.rest honce.result.symm
  refine ⟨hempty, f, rest, honce, ?_, ?_⟩
  · rw [hgraph]
    decide +kernel
  · rw [hrest]
    decide +kernel

end Assembly

end WorkflowGraph
