/-
# The order of the root plays no part

A conversion walks the root of a document once and fills as it goes: the placement, in which
the first place of an id counts, the removed ids, the links, the report. If every id occurs
once, all end nodes decode and no id is an alias of two loops, none of this lets the order of
the root through. The document with its root in another order is converted as well, to the
same graph and the same report, up to the order of nodes, edges and findings.
-/

import Mathlib.Algebra.BigOperators.Group.List.Basic
import WorkflowGraph.Proofs.GraphOrder
import WorkflowGraph.Proofs.LostNodes
import WorkflowGraph.Proofs.SettledRuns

namespace WorkflowGraph

namespace Dangling

variable {present other : List String}

theorem isDangling_perm (hperm : present.Perm other) : isDangling present = isDangling other := by
  funext r
  rw [isDangling, isDangling, Bool.eq_iff_iff]
  simp [hperm.mem_iff]

variable (hsame : isDangling present = isDangling other)

include hsame

theorem kept_congr : kept present = kept other := by
  funext r
  rw [kept, kept, hsame]

theorem cleanNode_congr : cleanNode present = cleanNode other := by
  have hinput : keepsInput present = keepsInput other := by
    funext i
    rw [keepsInput, keepsInput, hsame]
  have hcase : cleanCase present = cleanCase other := by
    have hcondition : cleanCondition present = cleanCondition other := by
      funext c
      rw [cleanCondition, cleanCondition, kept_congr hsame]
    funext c
    rw [cleanCase, cleanCase, hcondition]
  have hconfig : cleanConfig present = cleanConfig other := by
    funext config
    cases config <;> simp only [cleanConfig, hcase, kept_congr hsame]
  funext n
  rw [cleanNode, cleanNode, hinput, hconfig]

theorem nodeFindings_congr : nodeFindings present = nodeFindings other := by
  have hfinding : finding? present = finding? other := by
    funext node slot r
    rw [finding?, finding?, hsame]
  have hconfig : configFindings present = configFindings other := by
    funext node config
    cases config <;> simp only [configFindings, hfinding]
  funext n
  rw [nodeFindings, nodeFindings, hfinding, hconfig]

end Dangling

namespace Lift

variable {g : Registry} {d : Document} {rs : List Record} {t u : Nested Record}

theorem listedLinks_records (t : Nested Record) :
    listedLinks g { d with records := rs } t = listedLinks g d t := by
  induction t with
  | nil => rfl
  | leaf r rest ih => rw [listedLinks, listedLinks, ih]
  | loop r inner rest ihInner ihRest => rw [listedLinks, listedLinks, ihInner, ihRest]; rfl

theorem openedSections_records (t : Nested Record) :
    openedSections { d with records := rs } t = openedSections d t := by
  induction t with
  | nil => rfl
  | leaf r rest ih => rw [openedSections, openedSections, ih]
  | loop r inner rest ihInner ihRest => rw [openedSections, openedSections, ihInner, ihRest]; rfl

section Reordered

variable (hsame : t.Reorders u)

include hsame

theorem listedLinks_perm : (listedLinks g d t).Perm (listedLinks g d u) :=
  hsame.perm (listedLinks g d) (droppedLinks g)
    (fun r inner => (d.body? r).toList.flatMap (fun body =>
      body.links.map fun l => (.body r.id, l)) ++ listedLinks g d inner)
    rfl (fun _ _ => rfl) fun _ _ _ => rfl

theorem listedStarts_perm (level : Level) :
    (listedStarts g level t).Perm (listedStarts g level u) :=
  hsame.perm (listedStarts g level) (markedStarts g level)
    (fun r inner => listedStarts g (.body r.id) inner) rfl (fun _ _ => rfl) fun _ _ _ => rfl

/-- The same sections are left to the orphans. -/
theorem orphans_reorder : orphans g { d with records := rs }
      (openedSections { d with records := rs } u) = orphans g d (openedSections d t) := by
  have hperm : (openedSections d t).Perm (openedSections d u) :=
    hsame.perm (openedSections d) (fun _ => [])
      (fun r inner => usedSection d r ++ openedSections d inner) rfl (fun _ _ => rfl)
      fun _ _ _ => rfl
  rw [openedSections_records, orphans, orphans]
  congr 1
  apply List.filter_congr
  intro entry _
  rw [Bool.eq_iff_iff]
  simp [hperm.mem_iff]

end Reordered

section Rules

variable {resolver resolver' : Resolver} (hg : g.UsesBuiltIns)
  (hresolve : resolver.resolve = resolver'.resolve)

include hg hresolve

/-- Which ids a record removes does not depend on those removed before, if it decodes in
case it is an end node. -/
theorem removed_yield {r : Record} (hends : g.kind? r.tag = some .finish →
    (g.face? r).isSome = true) (level : Level) (removed removed' : List String) :
    (yield g resolver removed level r).removed = (yield g resolver' removed' level r).removed := by
  by_cases hfinish : g.kind? r.tag = some .finish
  · obtain ⟨face, hface⟩ := Option.isSome_iff_exists.mp (hends hfinish)
    obtain ⟨-, -, hdecodes⟩ := Registry.decode_of_face?_eq_some hg hface
    have hnone : ∀ resolver removed, (decodeRecord g resolver level removed r).2.removed = [] := by
      intro resolver removed
      obtain ⟨n, hn, -⟩ := hdecodes (context g resolver removed)
      rw [decodeRecord_of_ok hn]
      rfl
    unfold yield
    split
    · rfl
    · rw [Harvest.removed_append, Harvest.removed_append, hnone, hnone]
  · rw [yield, yield, decodeRecord_congr hg hresolve fun h => absurd h hfinish]

/-- Records in another order remove the same ids, whatever was removed before each. -/
theorem contains_removed_of_tally (hsame : t.Reorders u)
    (hends : ∀ r ∈ t.members, g.kind? r.tag = some .finish → (g.face? r).isSome = true)
    {h h' orphans : Harvest} {removed removed' : List String}
    (htally : h.tally = ((t.located Record.id .root).map fun e =>
      (yield g resolver removed e.1 e.2).tally).sum + orphans.tally)
    (htally' : h'.tally = ((u.located Record.id .root).map fun e =>
      (yield g resolver' removed' e.1 e.2).tally).sum + orphans.tally) :
    h.removed.contains = h'.removed.contains := by
  have hfst : ∀ (es : List (Level × Record)) (own : Level → Record → Harvest),
      ((es.map fun e => (own e.1 e.2).tally).sum).1 =
        (es.map fun e => ((own e.1 e.2).removed : Multiset String)).sum := by
    intro es own
    rw [← AddMonoidHom.coe_fst, map_list_sum, List.map_map]
    rfl
  have hown : ∀ e ∈ t.located Record.id .root, (yield g resolver removed e.1 e.2).removed =
      (yield g resolver' removed' e.1 e.2).removed := by
    intro e he
    have hmember := Nested.mem_members_of_mem_located he
    exact removed_yield hg hresolve (hends e.2 hmember) e.1 removed removed'
  have hremoved := congrArg Prod.fst htally
  have hremoved' := congrArg Prod.fst htally'
  rw [Prod.fst_add, hfst] at hremoved hremoved'
  have hperm : h.removed.Perm h'.removed := by
    apply Multiset.coe_eq_coe.mp
    refine hremoved.trans (Eq.trans ?_ hremoved'.symm)
    rw [((hsame.located_perm Record.id .root).map _).sum_eq.symm]
    congr 2
    exact List.map_congr_left fun e he => congrArg _ (hown e he)
  funext id
  rw [Bool.eq_iff_iff, List.contains_iff_mem, List.contains_iff_mem, hperm.mem_iff]

variable {removed removed' : List String} (hremoved : removed.contains = removed'.contains)

include hremoved

theorem yield_congr : yield g resolver removed = yield g resolver' removed' := by
  funext level r
  rw [yield, yield, decodeRecord_congr hg hresolve fun _ => hremoved]

theorem nodeOf?_congr : nodeOf? g resolver removed = nodeOf? g resolver' removed' := by
  funext level r
  rw [nodeOf?, nodeOf?, decodeRecord_congr hg hresolve fun _ => hremoved]

end Rules

end Lift

/-- Any nesting that the records decode to and that has the levels of a lifted document
mirrors it. -/
theorem Lifted.Mirrors.of_decodes {g : Registry} (hg : g.UsesBuiltIns) {d : Document}
    {resolver resolver' : Resolver} {l : Lifted} {t : Nested Record} {f f' : Nested Node}
    (hmirrors : l.Mirrors g d t f) (hdecodes : Lift.Decodes g resolver .root t f)
    (hdecodes' : Lift.Decodes g resolver' .root t f')
    (hlevels : l.levels = (f'.levels Node.id .root).map Lift.listed) : l.Mirrors g d t f' where
  levels := hlevels
  links := hmirrors.links
  placed := by
    rintro ⟨id, place⟩
    rw [hmirrors.placed, hdecodes.mem_places_iff hg, hdecodes'.mem_places_iff hg]
  starts := hmirrors.starts
  report := hmirrors.report

/-- A nesting whose lists repeat no id is put together from the table of its levels, with the
findings for its edges level by level. -/
theorem Assembly.ofLevel_tableOf_eq {p : Platform} {part : EdgePartition} {f : Nested Node}
    (hapart : f.LoopsApart) (hfresh : f.IsFresh)
    (hids : ∀ e ∈ f.levels Node.id .root, e.2.ids.Nodup) :
    ofLevel p part .root (tableOf f) = ⟨graph p part .root f,
      innerFindings p part f ++ levelFindings p part .root (attached p part f),
      leftover ((tableOf f).without .root) f⟩ := by
  have hroot : (.root, f) ∈ f.levels Node.id .root :=
    List.mem_append_right _ (List.mem_singleton_self _)
  have howns := hapart.ownsLevels hroot (f.count_root_levels_root Node.id) (hids _ hroot)
  have hkeeps : KeepsIds p part ((tableOf f).without .root) f :=
    Or.inl fun e he => hids e (List.mem_append_left _ he)
  have hnamed := named_of_loopsApart hapart hfresh _ (List.sublist_append_left _ _) howns
    (stores_tableOf f) hkeeps
  exact ofLevel_of_serves (nodes_tableOf_root f) hnamed.serves

/-- A document whose end node comes first and takes one value from a record that cannot be
decoded and one from a loop. The loop comes before the node that it walks over, and a link of
the root leads out of its body. -/
def Document.endFirst : Document :=
  ⟨[{ Record.bare "done" "end" with
      inputs := [⟨"lost", none, .pointer ⟨"odd", "x"⟩⟩, ⟨"all", none, .pointer ⟨"each", "list"⟩⟩] },
    .bare "odd" "unknown",
    { Record.bare "each" "iteration" with
      params := [("iterator", Pointer.toJson ⟨"begin", "items"⟩), ("start_node_id", .str "first"),
        ("output", Pointer.toJson ⟨"nobody", "x"⟩)]
      outputs := [⟨"list", none⟩]
      blocks := some ⟨[.bare "first" "iteration-start",
        { Record.bare "step" "code" with inputs := [⟨"item", none, .pointer ⟨"first", "item"⟩⟩] }],
        [⟨"", "first", none, "step", none⟩]⟩ },
    .bare "begin" "start"],
   [⟨"", "begin", none, "each", none⟩, ⟨"", "each", none, "done", none⟩,
    ⟨"", "step", none, "done", none⟩], ∅⟩

/-- Two conversions that differ in nothing but the order of nodes, edges and findings. -/
structure Conversion.Alike (c c' : Conversion) : Prop where
  source : c.source = c'.source
  graph : c.graph.Alike c'.graph
  converted : c.report.converted = c'.report.converted
  placeholders : c.report.placeholders.Perm c'.report.placeholders
  droppedBlocks : c.report.droppedBlocks.Perm c'.report.droppedBlocks
  diagnostics : c.report.diagnostics.Perm c'.report.diagnostics

/-- Alike conversions report as many findings of each kind. -/
theorem Conversion.Alike.count_eq {c c' : Conversion} (halike : c.Alike c')
    (kind : DiagnosticKind) : c.report.count kind = c'.report.count kind :=
  (halike.diagnostics.filter _).length_eq

namespace Conversion

open Assembly Document Placement

/-- The findings of the assembly, for a lifted document that is put together to its nesting. -/
theorem Rebuilt.assembly_diagnostics {g : Registry} {d : Document} {l : Lifted}
    {t : Nested Record} {f : Nested Node} (hrebuilt : Rebuilt g d l t f) (hfresh : f.IsFresh) :
    (ofLevel g.platform (partition g.platform l) .root
        (LevelTable.ofLevels (cleanLevels l.levels))).diagnostics =
      innerFindings g.platform (partition g.platform l) (f.clean (presentIds l.levels)) ++
        levelFindings g.platform (partition g.platform l) .root
          (attached g.platform (partition g.platform l) (f.clean (presentIds l.levels))) := by
  have hapart : (f.clean (presentIds l.levels)).LoopsApart := by
    simpa only [Nested.LoopsApart, Nested.forall_levels_clean, Nested.iterationIds_clean]
      using hrebuilt.apart
  have hids : ∀ e ∈ (f.clean (presentIds l.levels)).levels Node.id .root, e.2.ids.Nodup := by
    simpa only [Nested.forall_levels_clean, Nested.ids_clean] using hrebuilt.ids
  rw [cleanLevels_eq hrebuilt.mirrors, ← tableOf,
    ofLevel_tableOf_eq hapart (hfresh.clean _) hids]

/-- Two lifted documents over nestings with the same entries: the records of the second root
stand in another order, the nodes settle alike, and the runs note the same. -/
structure Reordered (g : Registry) (d d' : Document) (t t' : Nested Record)
    (f f' : Nested Node) (l l' : Lifted) : Prop where
  builtIns : g.UsesBuiltIns
  ids : (t.members.map Record.id).Nodup
  records : t.Reorders t'
  nodes : f.Reorders f'
  decodes : ∃ resolver, Lift.Decodes g resolver .root t f
  decodes' : ∃ resolver, Lift.Decodes g resolver .root t' f'
  rebuilt : Rebuilt g d l t f
  rebuilt' : Rebuilt g d' l' t' f'
  links : l.harvest.links.Perm l'.harvest.links
  tally : l.harvest.tally = l'.harvest.tally

namespace Reordered

variable {g : Registry} {d d' : Document} {t t' : Nested Record} {f f' : Nested Node}
  {l l' : Lifted} (h : Reordered g d d' t t' f f' l l')

include h

theorem lies_iff {place : Level} {r : Record} :
    t'.Lies Record.id .root place r ↔ t.Lies Record.id .root place r := by
  rw [← Nested.mem_located_iff, ← Nested.mem_located_iff,
    (h.records.located_perm Record.id .root).mem_iff]

theorem mem_nodes_iff {id : String} {place : Level} :
    (id, place) ∈ l'.placement.nodes ↔ (id, place) ∈ l.placement.nodes := by
  obtain ⟨_, hdecodes⟩ := h.decodes
  obtain ⟨_, hdecodes'⟩ := h.decodes'
  rw [h.rebuilt.mirrors.mem_nodes_iff h.builtIns hdecodes,
    h.rebuilt'.mirrors.mem_nodes_iff h.builtIns hdecodes']
  simp only [h.lies_iff]

theorem mem_starts_iff {id : String} {body : Level} :
    (id, body) ∈ l'.placement.starts ↔ (id, body) ∈ l.placement.starts := by
  rw [l.mem_starts_iff, l'.mem_starts_iff, h.rebuilt.mirrors.starts, h.rebuilt'.mirrors.starts]
  simp only [(Lift.listedStarts_perm h.records .root).mem_iff]

/-- The placements look up the same: an id lies on one level at most, so it does not matter
where it was placed first. -/
theorem loses_nothing : Loses [] l.placement l'.placement where
  contains_eq := by
    intro id _ level
    rw [Bool.eq_iff_iff, contains_iff, contains_iff]
    exact h.mem_nodes_iff
  levelOf?_eq := by
    intro id _ level
    refine nearest?_levelsOf_congr (fun _ => h.mem_nodes_iff) (fun x y hx hy => ?_) level
    obtain ⟨_, hdecodes⟩ := h.decodes
    exact h.rebuilt.mirrors.eq_of_mem_nodes h.builtIns hdecodes h.ids (h.mem_nodes_iff.mp hx)
      (h.mem_nodes_iff.mp hy)
  startBody?_eq := by
    intro id level
    refine nearest?_levelsOf_congr (fun _ => h.mem_starts_iff) (fun x y hx hy => ?_) level
    exact h.rebuilt.mirrors.eq_of_mem_starts h.ids (h.mem_starts_iff.mp hx)
      (h.mem_starts_iff.mp hy)
  gone := nofun
  not_start := nofun
  not_root := nofun
  not_owner := nofun

/-- Every link keeps its class. -/
theorem classOf_eq : EdgePartition.classOf g.platform l'.placement =
    EdgePartition.classOf g.platform l.placement := by
  funext listed
  exact Link.classify_of_untouched h.loses_nothing (by simp [Link.touches])

theorem class_perm {β : Type} (c : EdgeClass) (make : Level × Link → β) :
    ((l.harvest.links.filter fun listed =>
        EdgePartition.classOf g.platform l.placement listed = c).map make).Perm
      ((l'.harvest.links.filter fun listed =>
        EdgePartition.classOf g.platform l'.placement listed = c).map make) := by
  rw [h.classOf_eq]
  exact (h.links.filter _).map make

theorem partition_reorders :
    (partition g.platform l).Reorders (partition g.platform l') where
  onLevel := by
    intro level
    rw [(sorts_partition _ l).internal, (sorts_partition _ l').internal]
    exact h.class_perm _ _
  entryEdges := by
    intro owner
    rw [(sorts_partition _ l).entries, (sorts_partition _ l').entries]
    exact h.class_perm _ _

theorem droppedEdges_perm : (droppedEdges (partition g.platform l)).Perm
    (droppedEdges (partition g.platform l')) := by
  have hmixed : (partition g.platform l).mixed.Perm (partition g.platform l').mixed := by
    rw [(sorts_partition _ l).mixed, (sorts_partition _ l').mixed]
    exact h.class_perm _ _
  have hdangling : (partition g.platform l).dangling.Perm (partition g.platform l').dangling := by
    rw [(sorts_partition _ l).dangling, (sorts_partition _ l').dangling]
    exact h.class_perm _ _
  exact (hmixed.map _).append (hdangling.map _)

/-- The levels hold the same nodes, taken together. -/
theorem levels_perm : (l.levels.flatMap Prod.snd).Perm (l'.levels.flatMap Prod.snd) := by
  have hmembers : ∀ f : Nested Node,
      (((f.levels Node.id .root).map fun e => (e.1, e.2.roots)).flatMap Prod.snd).Perm
        f.members := by
    intro f
    rw [List.flatMap_map]
    exact f.levels_perm_members Node.id .root
  rw [h.rebuilt.mirrors.levels, h.rebuilt'.mirrors.levels]
  exact ((hmembers f).trans h.nodes.members_perm).trans (hmembers f').symm

theorem isDangling_eq :
    Dangling.isDangling (presentIds l.levels) = Dangling.isDangling (presentIds l'.levels) := by
  apply Dangling.isDangling_perm
  rw [presentIds, presentIds, ← List.map_flatMap, ← List.map_flatMap]
  exact h.levels_perm.map Node.id

theorem danglingReferences_perm :
    (danglingReferences l.levels).Perm (danglingReferences l'.levels) := by
  rw [danglingReferences, danglingReferences, ← List.flatMap_assoc, ← List.flatMap_assoc,
    Dangling.nodeFindings_congr h.isDangling_eq]
  exact h.levels_perm.flatMap_right _

theorem clean_reorders :
    (f.clean (presentIds l.levels)).Reorders (f'.clean (presentIds l'.levels)) := by
  rw [Nested.clean, Nested.clean, Dangling.cleanNode_congr h.isDangling_eq]
  exact h.nodes.map _

theorem nodup_ids_clean : (f.clean (presentIds l.levels)).ids.Nodup := by
  rw [Nested.ids_clean]
  exact h.rebuilt.ids (.root, f) (List.mem_append_right _ (List.mem_singleton_self _))

theorem graph_alike : (assemble g.platform l).1.Alike (assemble g.platform l').1 := by
  obtain ⟨_, hdecodes⟩ := h.decodes
  rw [h.rebuilt.graph, h.rebuilt'.graph]
  exact h.clean_reorders.graph_alike h.partition_reorders
    ((hdecodes.isFresh h.builtIns).clean _) h.nodup_ids_clean

theorem diagnostics_perm : (assemble g.platform l).2.diagnostics.Perm
    (assemble g.platform l').2.diagnostics := by
  obtain ⟨_, hdecodes⟩ := h.decodes
  obtain ⟨_, hdecodes'⟩ := h.decodes'
  have hlifted : l.harvest.report.diagnostics.Perm l'.harvest.report.diagnostics :=
    Multiset.coe_eq_coe.mp (congrArg (fun tally => tally.2.1) h.tally)
  rw [diagnostics_assemble, diagnostics_assemble,
    h.rebuilt.assembly_diagnostics (hdecodes.isFresh h.builtIns),
    h.rebuilt'.assembly_diagnostics (hdecodes'.isFresh h.builtIns)]
  exact hlifted.append ((h.droppedEdges_perm.append h.danglingReferences_perm).append
    (h.clean_reorders.findings_perm h.partition_reorders h.nodup_ids_clean))

theorem alike :
    Alike ⟨g.platform, (assemble g.platform l).1, (assemble g.platform l).2⟩
      ⟨g.platform, (assemble g.platform l').1, (assemble g.platform l').2⟩ where
  source := rfl
  graph := h.graph_alike
  converted := congrArg (fun tally => tally.2.2.2.2) h.tally
  placeholders := by
    have hlifted : l.harvest.report.placeholders.Perm l'.harvest.report.placeholders :=
      Multiset.coe_eq_coe.mp (congrArg (fun tally => tally.2.2.1) h.tally)
    exact hlifted.append (.refl [])
  droppedBlocks := by
    have hlifted : l.harvest.report.droppedBlocks.Perm l'.harvest.report.droppedBlocks :=
      Multiset.coe_eq_coe.mp (congrArg (fun tally => tally.2.2.2.1) h.tally)
    exact hlifted.append (.refl [])
  diagnostics := h.diagnostics_perm

end Reordered

/-- A document that is converted has the nesting that its records settle to, decoded with the
ids that its run removed. -/
theorem exists_settled {g : Registry} {d : Document} (hg : g.UsesBuiltIns)
    (hcheck : d.check = .ok ()) (hacyclic : d.SectionsAcyclic g) (hids : d.IdsApart g)
    (hends : d.EndsDecode g) :
    ∃ resolver t l, Survey.resolver? g d = some resolver ∧ d.Unrolls g d.records t ∧
      Rebuilt g d l t (Lift.settled g resolver l.harvest.removed .root t) ∧
      l.harvest.tally = ((t.located Record.id .root).map fun e =>
          (Lift.yield g resolver l.harvest.removed e.1 e.2).tally).sum +
        (Lift.orphans g d (Lift.openedSections d t)).tally ∧
      ofDocument g d = .ok ⟨g.platform, (assemble g.platform l).1, (assemble g.platform l).2⟩ := by
  obtain ⟨resolver, t, f, l, hresolver, hunrolls, hdecodes, hlifted, hrebuilt, hc⟩ :=
    exists_rebuilt hg hcheck hacyclic hids
  have hlevels := Lifted.ofDocument?_settles hg hends hlifted hresolver hunrolls
  have htally := Lifted.ofDocument?_tally hg hlifted hresolver hunrolls l.harvest.removed
  have hsettled : Lift.Decodes g resolver .root t
      (Lift.settled g resolver l.harvest.removed .root t) :=
    Lift.decodes_settled hg l.harvest.removed hunrolls .root
  refine ⟨resolver, t, l, hresolver, hunrolls, ?_, htally, hc⟩
  exact rebuilt_of_loopsApart hg (hids.loopsApart hunrolls) hunrolls hsettled
    (hrebuilt.mirrors.of_decodes hg hdecodes hsettled hlevels)
    (Or.inl (hsettled.ids_nodup hg (fun _ _ => hids.nodup hunrolls) hunrolls))

/-- The order of the root plays no part. If every id occurs once among the lifted lists, all
end nodes decode and no id is an alias of two loops, a document is converted with its root in
any order, to the same graph and the same report up to the order of nodes, edges and
findings. Nothing is claimed for the order inside a body. -/
theorem ofDocument_reorder {p : Platform} {g : Registry} (hg : Registry.Derived p g)
    {d : Document} (hcheck : d.check = .ok ()) (hacyclic : d.SectionsAcyclic g)
    (hids : d.IdsApart g) (hends : d.EndsDecode g) (haliases : d.AliasesApart g)
    {rs : List Record} (hperm : rs.Perm d.records) :
    ∃ c c', ofDocument g d = .ok c ∧ ofDocument g { d with records := rs } = .ok c' ∧
      c.Alike c' := by
  have hbuiltIns := hg.usesBuiltIns
  obtain ⟨resolver, t, l, hresolver, ht, hrebuilt, htally, hc⟩ :=
    exists_settled hbuiltIns hcheck hacyclic hids hends
  obtain ⟨resolver', t', l', hresolver', ht', hrebuilt', htally', hc'⟩ :=
    exists_settled hbuiltIns (check_reorder hperm hcheck) (hacyclic.reorder hperm)
      (hids.reorder hperm) (hends.reorder hperm)
  have hsame : t.Reorders t' := by
    obtain ⟨u, hu, hreorders⟩ := ht.reorder hperm.symm
    exact hu.unique (unrolls_records_iff.mp ht') ▸ hreorders
  have hresolve := Survey.resolve_congr haliases (fun _ => calls_reorder_iff hperm) hresolver
    hresolver'
  rw [Lift.orphans_reorder hsame] at htally'
  have hremoved := Lift.contains_removed_of_tally hbuiltIns hresolve hsame
    (fun r hr => hends.isSome_face? hbuiltIns ht hr) htally htally'
  have hreordered : Reordered g d { d with records := rs } t t' _ _ l l' := {
    builtIns := hbuiltIns
    ids := hids t ht
    records := hsame
    nodes := by
      rw [Lift.settled, Lift.settled, Lift.nodeOf?_congr hbuiltIns hresolve hremoved]
      exact hsame.settle _ _ _
    decodes := ⟨resolver, Lift.decodes_settled hbuiltIns _ ht _⟩
    decodes' := ⟨resolver', Lift.decodes_settled hbuiltIns _ ht' _⟩
    rebuilt := hrebuilt
    rebuilt' := hrebuilt'
    links := by
      have hlisted := (Lift.listedLinks_perm (g := g) (d := d) hsame).append_left
        (d.links.map fun link => (.root, link))
      rw [hrebuilt.mirrors.links, hrebuilt'.mirrors.links, Lift.orphans_reorder hsame,
        Lift.listedLinks_records t']
      exact hlisted.append_right _
    tally := by
      rw [htally, htally', Lift.yield_congr hbuiltIns hresolve hremoved,
        ((hsame.located_perm Record.id .root).map _).sum_eq] }
  exact ⟨_, _, hc, hc', hreordered.alike⟩

theorem ofDocument_reorder_endFirst :
    endFirst.check = .ok () ∧ endFirst.SectionsAcyclic (.withDefaults .dify) ∧
      endFirst.IdsApart (.withDefaults .dify) ∧ endFirst.EndsDecode (.withDefaults .dify) ∧
        endFirst.AliasesApart (.withDefaults .dify) ∧
          endFirst.records.reverse.Perm endFirst.records ∧
            ∃ c c', ofDocument (.withDefaults .dify) endFirst = .ok c ∧
              ofDocument (.withDefaults .dify)
                { endFirst with records := endFirst.records.reverse } = .ok c' ∧
                c.Alike c' ∧ c.report.diagnostics.length = 3 := by
  have hcheck : endFirst.check = .ok () := by decide +kernel
  have hacyclic := endFirst.sectionsAcyclic_of_eq_nil (g := .withDefaults .dify) rfl
  have hids : endFirst.IdsApart (.withDefaults .dify) :=
    idsApart_of_unroll? 8 (by decide +kernel)
  have hends : endFirst.EndsDecode (.withDefaults .dify) :=
    endsDecode_of_unroll? 8 (by decide +kernel)
  have haliases : endFirst.AliasesApart (.withDefaults .dify) :=
    (idsOnOneLevel_of_unroll? 8 (by decide +kernel)).aliasesApart
      (startsOwn_of_unroll? 8 (by decide +kernel))
  have hperm := List.reverse_perm endFirst.records
  obtain ⟨c, c', hc, hc', halike⟩ :=
    ofDocument_reorder .defaults hcheck hacyclic hids hends haliases hperm
  have hcount : (ofDocument (.withDefaults .dify) endFirst).toOption.map
      (fun c => c.report.diagnostics.length) = some 3 := by decide +kernel
  rw [hc] at hcount
  exact ⟨hcheck, hacyclic, hids, hends, haliases, hperm, c, c', hc, hc', halike,
    Option.some.inj hcount⟩

-- The nodes of the root come out in the other order.
example : (ofDocument (.withDefaults .dify)
      { endFirst with records := endFirst.records.reverse }).toOption.map
    (fun c => c.graph.nodes.map Node.id) = some ["begin", "each", "odd", "done"] := by
  decide +kernel

end Conversion

end WorkflowGraph
