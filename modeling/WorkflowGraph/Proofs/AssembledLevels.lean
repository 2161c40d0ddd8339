/-
# Where the parts of a graph come from

Every node on every level of an assembled graph was stored in the table of levels, and
every edge is what a link of the partition means when it leaves a node of its level. This
holds whatever ids the nodes share: a level that is taken out of the table for a body
leaves a smaller table, and nothing is ever added to it.
-/

import WorkflowGraph.Proofs.CarriedPointers
import WorkflowGraph.Proofs.ParsedRecords
import WorkflowGraph.Proofs.SharedNames
import WorkflowGraph.Proofs.Violations

namespace WorkflowGraph

namespace Graph

mutual
theorem exists_level_of_mem_walk {n : Node} : (g : Graph) → n ∈ g.walk →
    ∃ level, g.HasLevel level ∧ n ∈ level.nodes
  | ⟨nodes, edges⟩, hn => by
      rw [walk] at hn
      rcases exists_level_of_mem_walkNodes nodes hn with hhere | ⟨m, hm, loop, level, hloop, h⟩
      · exact ⟨⟨nodes, edges⟩, .self, hhere⟩
      · exact ⟨level, .body hm hloop h.1, h.2⟩

theorem exists_level_of_mem_walkNodes {n : Node} : (ns : List Node) → n ∈ walkNodes ns →
    n ∈ ns ∨ ∃ m ∈ ns, ∃ loop level, m.config = .iteration loop ∧ loop.body.HasLevel level ∧
      n ∈ level.nodes
  | [], hn => by
      rw [walkNodes] at hn
      cases hn
  | ⟨id, kind, title, config, inputs, outputs, presentation⟩ :: ns, hn => by
      rw [walkNodes, List.cons_append, List.mem_cons, List.mem_append] at hn
      rcases hn with rfl | hinside | hlater
      · exact Or.inl List.mem_cons_self
      · exact Or.inr ⟨_, List.mem_cons_self, exists_level_of_mem_walkBody config hinside⟩
      · rcases exists_level_of_mem_walkNodes ns hlater with hhere | ⟨m, hm, hinside⟩
        · exact Or.inl (List.mem_cons_of_mem _ hhere)
        · exact Or.inr ⟨m, List.mem_cons_of_mem _ hm, hinside⟩

theorem exists_level_of_mem_walkBody {n : Node} : (config : Config) → n ∈ walkBody config →
    ∃ loop level, config = .iteration loop ∧ loop.body.HasLevel level ∧ n ∈ level.nodes
  | .iteration ⟨_, _, _, _, _, body⟩, hn => by
      rw [walkBody] at hn
      obtain ⟨level, hlevel, hmem⟩ := exists_level_of_mem_walk body hn
      exact ⟨_, level, rfl, hlevel, hmem⟩
  | .start, hn | .finish _, hn | .llm _, hn | .code _, hn | .condition _, hn
  | .classifier _, hn => by
      simp [walkBody] at hn
end

end Graph

theorem LevelTable.exists_mem_of_mem_nodes {t : LevelTable} {level : Level} {n : Node}
    (hn : n ∈ t.nodes level) : ∃ e ∈ t, n ∈ e.2 := by
  unfold nodes at hn
  cases hlookup : t.lookup level with
  | none => simp [hlookup] at hn
  | some ns =>
      obtain ⟨before, after, rfl, -⟩ := List.lookup_eq_some_iff.mp hlookup
      rw [hlookup] at hn
      exact ⟨_, List.mem_append_right _ List.mem_cons_self, hn⟩

namespace Assembly

open WorkflowGraph.Graph

variable (p : Platform) (part : EdgePartition)

/-- A level of a graph is made of what is stored: its nodes stand in the table, with or
without a body, and its edges are those that the partition keeps on one level. -/
structure BuiltFrom (t : LevelTable) (level : Graph) : Prop where
  nodes : ∀ n ∈ level.nodes,
    ∃ e ∈ t, ∃ own ∈ e.2, n = own ∨ ∃ body, n = own.withBody part body
  edges : ∃ place, level.edges = edges p part place level.nodes

/-- A graph that was assembled from a table, and what it leaves of the table. -/
structure DrawsFrom (t : LevelTable) (a : Assembled Graph) : Prop where
  rest : a.rest ⊆ t
  levels : ∀ level, a.value.HasLevel level → BuiltFrom p part t level

variable {p part}

theorem BuiltFrom.mono {t t' : LevelTable} {level : Graph} (hlevel : BuiltFrom p part t level)
    (hsub : t ⊆ t') : BuiltFrom p part t' level where
  nodes n hn := by
    obtain ⟨e, he, hown⟩ := hlevel.nodes n hn
    exact ⟨e, hsub he, hown⟩
  edges := hlevel.edges

/-- The entry edges of a node that was decoded, with or without a body, are those that the
partition keeps for it. -/
theorem entryEdges_subset {own n : Node} (hown : own.IsFresh)
    (hn : n = own ∨ ∃ body, n = own.withBody part body) :
    n.entryEdges ⊆ part.entryEdges n.id := by
  have hbare : own.entryEdges = [] := by
    unfold Node.entryEdges Node.loop?
    cases hconfig : own.config with
    | iteration loop => exact (hown.loop loop hconfig).1
    | _ => rfl
  rcases hn with rfl | ⟨body, rfl⟩
  · rw [hbare]
    exact List.nil_subset _
  · rw [Node.withBody_id]
    cases hkind : own.config with
    | iteration loop =>
        rw [entryEdges_withBody part hown (by rw [← hown.config, hkind]; rfl)]
        exact List.Subset.refl _
    | _ =>
        have hsame : own.withBody part body = own := by
          simp [Node.withBody, Node.reattach?, hkind]
        rw [hsame, hbare]
        exact List.nil_subset _

/-- An edge of a level is what a link of the level means when it leaves one of the nodes. -/
theorem exists_link_of_mem_edges {place : Level} {nodes : List Node} {e : Edge}
    (he : e ∈ edges p part place nodes) :
    ∃ link ∈ part.onLevel place, ∃ n ∈ nodes, n.id = link.source ∧ e = link.toEdge p n := by
  obtain ⟨entry, hentry, rfl⟩ := List.mem_map.mp he
  obtain ⟨link, hlink, hsource⟩ := List.mem_filterMap.mp hentry
  obtain ⟨n, hn, ⟨⟩⟩ := Option.map_eq_some_iff.mp hsource
  unfold lastNode? at hn
  have hid := List.find?_some hn
  exact ⟨link, hlink, n, List.mem_reverse.mp (List.mem_of_find?_eq_some hn), beq_iff_eq.mp hid, rfl⟩

theorem builtFrom_empty (t : LevelTable) : BuiltFrom p part t .empty where
  nodes := nofun
  edges := ⟨.root, (edges_nil p part .root).symm⟩

theorem drawsFrom_empty (t : LevelTable) : DrawsFrom p part t ⟨.empty, [], t⟩ where
  rest := List.Subset.refl t
  levels level hlevel := by
    cases hlevel with
    | self => exact builtFrom_empty t
    | body hn => cases hn

/-- The nodes of a list keep their places when they are given bodies, and the bodies are
made of what is stored. -/
theorem drawsFrom_attachBodies {inner : Level → LevelTable → Assembled Graph}
    (hinner : ∀ place t, FreshTable t → DrawsFrom p part t (inner place t)) (ns : List Node) :
    ∀ t, (∀ n ∈ ns, n.IsFresh) → FreshTable t → (attachBodies part inner ns t).rest ⊆ t ∧
      ∀ n ∈ (attachBodies part inner ns t).value,
        (∃ own ∈ ns, n = own ∨ ∃ body, n = own.withBody part body) ∧
          ∀ loop, n.config = .iteration loop → ∀ level, loop.body.HasLevel level →
            BuiltFrom p part t level := by
  induction ns with
  | nil => exact fun t _ _ => ⟨List.Subset.refl t, nofun⟩
  | cons own ns ih =>
      intro t hfresh ht
      obtain ⟨hown, hns⟩ := List.forall_mem_cons.mp hfresh
      by_cases hkind : own.kind = .iteration
      · have hbody := hinner (.body own.id) t ht
        obtain ⟨hrest, hvalue⟩ := ih _ hns fun e he => ht e (hbody.rest he)
        rw [attachBodies_cons_of_iteration inner hkind]
        refine ⟨List.Subset.trans hrest hbody.rest, List.forall_mem_cons.mpr ⟨⟨⟨own, ?_⟩, ?_⟩, ?_⟩⟩
        · exact ⟨List.mem_cons_self, Or.inr ⟨_, rfl⟩⟩
        · intro loop hloop level hlevel
          obtain ⟨loop', hloop', hgraph, -⟩ :=
            hown.withBody_config hkind part (inner (.body own.id) t).value
          obtain rfl := Config.iteration.inj (hloop.symm.trans hloop')
          exact hbody.levels level (hgraph ▸ hlevel)
        · intro n hn
          obtain ⟨⟨from', hfrom, hsame⟩, hlevels⟩ := hvalue n hn
          exact ⟨⟨from', List.mem_cons_of_mem _ hfrom, hsame⟩, fun loop hloop level hlevel =>
            (hlevels loop hloop level hlevel).mono hbody.rest⟩
      · obtain ⟨hrest, hvalue⟩ := ih t hns ht
        rw [attachBodies_cons_of_ne inner hkind]
        refine ⟨hrest, List.forall_mem_cons.mpr ⟨⟨⟨own, List.mem_cons_self, Or.inl rfl⟩, ?_⟩, ?_⟩⟩
        · intro loop hloop
          exact absurd (hown.config ▸ congrArg Config.kind hloop) hkind
        · intro n hn
          obtain ⟨⟨from', hfrom, hsame⟩, hlevels⟩ := hvalue n hn
          exact ⟨⟨from', List.mem_cons_of_mem _ hfrom, hsame⟩, hlevels⟩

theorem drawsFrom_within (n : Nat) :
    ∀ place t, FreshTable t → DrawsFrom p part t (within p part n place t) := by
  induction n with
  | zero => exact fun _ t _ => drawsFrom_empty t
  | succ n ih =>
      intro place t ht
      have hsub : t.without place ⊆ t := List.filter_subset_self t
      obtain ⟨hrest, hvalue⟩ :=
        drawsFrom_attachBodies ih (t.nodes place) _ (ht.nodes place) (ht.without place)
      rw [within_succ]
      refine ⟨List.Subset.trans hrest hsub, fun level hlevel => ?_⟩
      cases hlevel with
      | self =>
          refine ⟨fun n hn => ?_, ⟨place, rfl⟩⟩
          obtain ⟨own, hown, hsame⟩ := (hvalue n hn).1
          obtain ⟨e, he, hmem⟩ := LevelTable.exists_mem_of_mem_nodes hown
          exact ⟨e, he, own, hmem, hsame⟩
      | body hn hloop hinside => exact ((hvalue _ hn).2 _ hloop level hinside).mono hsub

/-- Every level of an assembled graph is made of what is stored in the table. -/
theorem builtFrom_ofLevel {t : LevelTable} (ht : FreshTable t) {place : Level} {level : Graph}
    (hlevel : (ofLevel p part place t).value.HasLevel level) : BuiltFrom p part t level :=
  (drawsFrom_within t.length place t ht).levels level hlevel

end Assembly

namespace Conversion

open Assembly

variable {g : Registry} {d : Document} {c : Conversion}

/-- What a level of the graph of a document is made of: each node is what becomes of the
node of a record, and each edge is what a captured link means when it leaves a node of the
level. Entry edges have no handle. -/
structure MadeOf (g : Registry) (d : Document) (resolver : Resolver) (t : Nested Record)
    (level : Graph) : Prop where
  nodes : ∀ n ∈ level.nodes, ∃ place r own part present, d.Holds r ∧
    Lift.Becomes g resolver place r own ∧ own.Finishes part present n
  edges : ∀ e ∈ level.edges, ∃ link ∈ d.capturedLinks g t, ∃ n ∈ level.nodes,
    n.id = link.source ∧ e = link.toEdge g.platform n
  entries : ∀ n ∈ level.nodes, ∀ e ∈ n.entryEdges, ∃ link : Link, e = link.toEntryEdge n.id

/-- Every node in the table of levels is what becomes of the node of a record. -/
theorem exists_becomes_of_stored {resolver : Resolver} {t : Nested Record} {f : Nested Node}
    {l : Lifted} (ht : d.Unrolls g d.records t)
    (hdecodes : Lift.Decodes g resolver .root t f) (hmirrors : l.Mirrors g d t f) :
    ∀ e ∈ tableOf (f.clean (presentIds l.levels)), ∀ own ∈ e.2,
      ∃ place r raw, d.Holds r ∧ Lift.Becomes g resolver place r raw ∧
        own = Dangling.cleanNode (presentIds l.levels) raw := by
  intro e he own hown
  rw [tableOf, ← cleanLevels_eq hmirrors] at he
  obtain ⟨list, hlist, rfl⟩ := List.mem_map.mp (LevelTable.mem_of_mem_ofLevels he)
  obtain ⟨raw, hraw, rfl⟩ := List.mem_map.mp hown
  rw [hmirrors.levels] at hlist
  obtain ⟨inner, hinner, rfl⟩ := List.mem_map.mp hlist
  have hmember : raw ∈ f.members :=
    (f.levels_perm_members Node.id .root).subset (List.mem_flatMap.mpr ⟨inner, hinner, hraw⟩)
  obtain ⟨place, r, hlies, hbecomes⟩ := hdecodes.exists_becomes hmember
  exact ⟨place, r, raw, Document.holds_of_mem_allRecords (ht.mem_allRecords hlies), hbecomes, rfl⟩

/-- Every level of a converted document is made of its records and links, whatever ids
they share. -/
theorem madeOf_of_ok (hg : g.UsesBuiltIns) (hc : ofDocument g d = .ok c) :
    ∃ resolver t, Survey.resolver? g d = some resolver ∧ d.Unrolls g d.records t ∧
      ∀ level, c.graph.HasLevel level → MadeOf g d resolver t level := by
  obtain ⟨-, l, hlifted, -, rfl⟩ := ofDocument_eq_ok_iff.mp hc
  obtain ⟨resolver, t, f, hresolver, ht, hdecodes, hmirrors⟩ :=
    Lifted.ofDocument?_decodes hg hlifted
  refine ⟨resolver, t, hresolver, ht, fun level hlevel => ?_⟩
  have hfresh : (f.clean (presentIds l.levels)).IsFresh := (hdecodes.isFresh hg).clean _
  rw [assemble_fst_eq _ hmirrors] at hlevel
  have htable := freshTable_tableOf hfresh
  have hbuilt := builtFrom_ofLevel htable hlevel
  refine ⟨fun n hn => ?_, fun e he => ?_, fun n hn e he => ?_⟩
  · obtain ⟨entry, hentry, own, hown, hsame⟩ := hbuilt.nodes n hn
    obtain ⟨place, r, raw, hr, hbecomes, rfl⟩ :=
      exists_becomes_of_stored ht hdecodes hmirrors entry hentry own hown
    exact ⟨place, r, raw, _, _, hr, hbecomes, hsame⟩
  · obtain ⟨place, hedges⟩ := hbuilt.edges
    rw [hedges] at he
    obtain ⟨link, hlink, n, hn, hid, rfl⟩ := exists_link_of_mem_edges he
    refine ⟨link, ?_, n, hn, hid, rfl⟩
    rw [(sorts_partition g.platform l).internal] at hlink
    rw [← hmirrors.map_snd_links]
    exact List.map_subset _ (List.filter_subset_self _) hlink
  · obtain ⟨entry, hentry, own, hown, hsame⟩ := hbuilt.nodes n hn
    have hkept := entryEdges_subset (htable entry hentry own hown) hsame he
    rw [(sorts_partition g.platform l).entries] at hkept
    obtain ⟨listed, -, rfl⟩ := List.mem_map.mp hkept
    exact ⟨listed.2, rfl⟩

/-- Every level of a converted document keeps the rules. -/
theorem keepsLevelRules_of_ok (hc : ofDocument g d = .ok c) {level : Graph}
    (hlevel : c.graph.HasLevel level) : level.KeepsLevelRules := by
  obtain ⟨-, l, -, hvalid, rfl⟩ := ofDocument_eq_ok_iff.mp hc
  exact Graph.KeepsRules.keepsLevelRules hlevel ((Graph.validate_eq_ok_iff _).mp hvalid)

/-- An edge of a level that leaves a node of the level is what a captured link means when it
leaves this node: the level has no other node with the id. -/
theorem MadeOf.exists_link {resolver : Resolver} {t : Nested Record} {level : Graph}
    (hmade : MadeOf g d resolver t level) (hrules : level.KeepsLevelRules) {n : Node}
    (hn : n ∈ level.nodes) {e : Edge} (he : e ∈ level.edges) (hsource : e.source = n.id) :
    ∃ link ∈ d.capturedLinks g t, e = link.toEdge g.platform n := by
  obtain ⟨link, hlink, m, hm, hid, rfl⟩ := hmade.edges e he
  obtain rfl : m = n := List.inj_on_of_nodup_map hrules.level.ids hm hn (hid.trans hsource)
  exact ⟨link, hlink, rfl⟩

end Conversion

end WorkflowGraph
