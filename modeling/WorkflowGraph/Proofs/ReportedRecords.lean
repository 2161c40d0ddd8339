/-
# Which records a conversion accounts for

A record becomes a node, or it is reported as a dropped block, and never both. This holds
of every record of a document but those of the overlooked bodies: a body on a loop-start
record, wherever that stands, and a body on a record that is decoded as an end node. The
records of such a body are lost without a finding, although the same body on any other
record that cannot hold it is reported. Loop-start records themselves are no blocks, and
nothing is said about them.
-/

import WorkflowGraph.Proofs.BodyStorage
import WorkflowGraph.Proofs.RecordFindings
import WorkflowGraph.Proofs.References
import WorkflowGraph.Proofs.RunNotes

namespace WorkflowGraph

namespace Document

variable {g : Registry} {d : Document}

/-- The records of the lists that are lifted are the members of the nesting. -/
theorem Unrolls.members_perm {rs : List Record} {t : Nested Record} (ht : d.Unrolls g rs t) :
    (rs ++ (d.liftedBodies t).flatMap fun entry => entry.2.records).Perm t.members := by
  induction ht with
  | nil => exact List.Perm.nil
  | leaf _ _ ih => exact ih.cons _
  | @loop r rs body inner t hopen _ _ ihInner ih =>
    have hbody := (opened?_eq_some_iff.mp hopen).2
    rw [liftedBodies, hbody, Nested.members]
    show (r :: (rs ++ ((r.id, body) :: d.liftedBodies inner ++ d.liftedBodies t).flatMap
      fun entry => entry.2.records)).Perm _
    rw [List.flatMap_append, List.flatMap_cons]
    refine List.Perm.cons r (List.Perm.trans ?_ (ihInner.append ih))
    exact List.perm_append_comm_assoc _ _ _

/-- Every record of a document is a member of its nesting, or it stands in a body that is
dropped or overlooked. -/
theorem allRecords_perm (hg : g.UsesBuiltIns)
    {t : Nested Record} (ht : d.Unrolls g d.records t) (hids : (t.members.map Record.id).Nodup) :
    d.allRecords.Perm (t.members ++
      (((d.droppedBodies g t).flatMap fun entry => entry.2.records) ++
        (d.overlookedBodies g t).flatMap fun entry => entry.2.records)) := by
  have hbodies := (bodies_perm hg ht hids).flatMap_right fun entry => entry.2.records
  rw [List.flatMap_append, List.flatMap_append] at hbodies
  rw [allRecords, lists, List.flatMap_cons, List.flatMap_map]
  refine (hbodies.append_left _).trans ?_
  rw [← List.append_assoc]
  exact ht.members_perm.append_right _

/-- A record stands in one of the bodies. -/
def StandsIn (bodies : List (String × Blocks)) (r : Record) : Prop :=
  ∃ entry ∈ bodies, r ∈ entry.2.records

theorem standsIn_iff {bodies : List (String × Blocks)} {r : Record} :
    StandsIn bodies r ↔ r ∈ bodies.flatMap fun entry => entry.2.records :=
  List.mem_flatMap.symm

/-- A record of a nesting survives on its level. -/
def Survives (g : Registry) (t : Nested Record) (r : Record) : Prop :=
  ∃ place, t.Lies Record.id .root place r ∧ (g.survivor? place r).isSome = true

theorem Survives.mem_members {t : Nested Record} {r : Record} (hr : Survives g t r) :
    r ∈ t.members := by
  obtain ⟨place, hlies, -⟩ := hr
  exact Nested.mem_members_of_mem_located (Nested.mem_located_iff.mpr hlies)

/-- In a nesting that repeats no id, a record survives if it does so where it lies. -/
theorem survives_iff {t : Nested Record} (hids : (t.members.map Record.id).Nodup)
    {place : Level} {r : Record} (hlies : t.Lies Record.id .root place r) :
    Survives g t r ↔ (g.survivor? place r).isSome = true := by
  constructor
  · rintro ⟨other, hother, hsome⟩
    obtain rfl := (hlies.unique hids hother rfl).1
    exact hsome
  · exact fun hsome => ⟨place, hlies, hsome⟩

/-- In a nesting that repeats no id, a record is left out exactly if it does not survive. -/
theorem mem_leftOut_iff {t : Nested Record} (hids : (t.members.map Record.id).Nodup) {r : Record}
    (hplain : g.platform.isPseudoTag r.tag = false) :
    r ∈ leftOut g t ↔ r ∈ t.members ∧ ¬ Survives g t r := by
  by_cases hmember : r ∈ t.members
  · obtain ⟨place, hlies⟩ := Nested.exists_lies Record.id .root hmember
    rw [leftOut, hlies.mem_picked_iff hids, survives_iff hids hlies]
    simp [isLeftOut, hplain, hmember]
  · refine iff_of_false (fun hleft => hmember ?_) fun h => hmember h.1
    obtain ⟨e, hkept, rfl⟩ := List.mem_map.mp hleft
    exact Nested.mem_members_of_mem_located (List.mem_of_mem_filter hkept)

/-- The members of the nesting are records of the document. -/
theorem members_subset (hg : g.UsesBuiltIns)
    {t : Nested Record} (ht : d.Unrolls g d.records t) (hids : (t.members.map Record.id).Nodup) :
    t.members ⊆ d.allRecords := by
  have hperm := allRecords_perm hg ht hids
  exact List.Subset.trans (List.subset_append_left _ _) hperm.symm.subset

/-- The records that are reported as dropped are records of the document. -/
theorem droppedRecords_subset (hg : g.UsesBuiltIns)
    {t : Nested Record} (ht : d.Unrolls g d.records t) (hids : (t.members.map Record.id).Nodup) :
    d.droppedRecords g t ⊆ d.allRecords := by
  intro r hr
  refine (allRecords_perm hg ht hids).symm.subset ?_
  rcases List.mem_append.mp hr with hleft | hbody
  · obtain ⟨e, he, rfl⟩ := List.mem_map.mp hleft
    have hmember := Nested.mem_members_of_mem_located (List.mem_of_mem_filter he)
    exact List.mem_append_left _ hmember
  · obtain ⟨entry, hentry, hreported⟩ := List.mem_flatMap.mp hbody
    have hin := List.mem_of_mem_filter hreported
    exact List.mem_append_right _ (List.mem_append_left _ (List.mem_flatMap.mpr ⟨_, hentry, hin⟩))

/-- If no two records share an id, a record is among others if a key is that names the id. -/
theorem DistinctIds.key_mem_map_iff (hids : d.DistinctIds) {α : Type} {key : Record → α}
    {rs : List Record} (hsubset : rs ⊆ d.allRecords)
    (hkey : ∀ r r', key r = key r' → r.id = r'.id) {r : Record} (hr : r ∈ d.allRecords) :
    key r ∈ rs.map key ↔ r ∈ rs := by
  rw [List.mem_map]
  constructor
  · rintro ⟨other, hother, hsame⟩
    obtain rfl := List.inj_on_of_nodup_map hids (hsubset hother) hr (hkey _ _ hsame)
    exact hother
  · exact fun hin => ⟨r, hin, rfl⟩

/-- If no two records share an id, the lists that are lifted, the bodies that are dropped and
those that are overlooked have no record in common. -/
theorem DistinctIds.apart (hg : g.UsesBuiltIns)
    (hids : d.DistinctIds) {t : Nested Record} (ht : d.Unrolls g d.records t) {r : Record} :
    (r ∈ t.members → ¬ StandsIn (d.droppedBodies g t) r ∧ ¬ StandsIn (d.overlookedBodies g t) r) ∧
      (StandsIn (d.droppedBodies g t) r → ¬ StandsIn (d.overlookedBodies g t) r) := by
  have hperm := allRecords_perm hg ht (hids.idsApart hg t ht)
  have hnodup := hperm.nodup_iff.mp (List.Nodup.of_map Record.id hids)
  obtain ⟨-, hrest, hapart⟩ := List.nodup_append'.mp hnodup
  have hapart' := (List.nodup_append'.mp hrest).2.2
  constructor
  · intro hin
    have hout := hapart hin
    rw [List.mem_append, ← standsIn_iff, ← standsIn_iff] at hout
    exact not_or.mp hout
  · exact fun hin hout => hapart' (standsIn_iff.mp hin) (standsIn_iff.mp hout)

/-- The records of a document that are no loop-start records: each survives, is reported as
dropped or is overlooked, and has only one of these fates. -/
theorem DistinctIds.fates (hg : g.UsesBuiltIns)
    (hids : d.DistinctIds) {t : Nested Record} (ht : d.Unrolls g d.records t) {r : Record}
    (hr : r ∈ d.allRecords) (hplain : g.platform.isPseudoTag r.tag = false) :
    ¬ (Survives g t r ∧ r ∈ d.droppedRecords g t) ∧
      ((Survives g t r ∨ r ∈ d.droppedRecords g t) ↔
        ¬ StandsIn (d.overlookedBodies g t) r) := by
  have hmembers := hids.idsApart hg t ht
  obtain ⟨hmember, hbody⟩ := hids.apart hg ht (r := r)
  have hdropped : r ∈ d.droppedRecords g t ↔
      (r ∈ t.members ∧ ¬ Survives g t r) ∨ StandsIn (d.droppedBodies g t) r := by
    rw [droppedRecords, List.mem_append, mem_leftOut_iff hmembers hplain, StandsIn]
    simp [Blocks.reported, hplain]
  have hsomewhere := (allRecords_perm hg ht hmembers).mem_iff.mp hr
  rw [List.mem_append, List.mem_append, ← standsIn_iff, ← standsIn_iff] at hsomewhere
  have hsurvives : Survives g t r → r ∈ t.members := Survives.mem_members
  rw [hdropped]
  by_cases hlives : Survives g t r
  · have hin := hsurvives hlives
    simp [hlives, hmember hin]
  · simp only [hlives, false_and, false_or, not_false_eq_true, and_true, true_and]
    constructor
    · rintro (hin | hdrop)
      · exact (hmember hin).2
      · exact hbody hdrop
    · exact fun hheld => (or_assoc.mpr hsomewhere).resolve_right hheld

/-- Blocks in a loop, in a block that cannot be decoded, in a section without a loop, and on
an end node. -/
def scattered : Document :=
  ⟨[{ Record.bare "loop" "21" with
      blocks := some ⟨[.bare "step" "5",
        { Record.bare "odd" "unknown" with blocks := some ⟨[.bare "deep" "5"], []⟩ }], []⟩ },
    { Record.bare "end" "2" with blocks := some ⟨[.bare "lost" "5"], []⟩ }],
   [], [("ghost", Blocks.mk [.bare "stray" "5"] [])]⟩

/-- A block on an end node. -/
def blockOnEnd : Document :=
  ⟨[{ Record.bare "end" "2" with blocks := some ⟨[.bare "x" "5"], []⟩ }], [], ∅⟩

end Document

namespace Conversion

variable {p : Platform} {g : Registry} {d : Document}

/-- The graph has a node under the id of a record. -/
def HasNode (c : Conversion) (r : Record) : Prop :=
  r.id ∈ c.graph.walk.map Node.id

/-- A finding about a dropped block names the id and the tag of a record. -/
def NamesDropped (c : Conversion) (r : Record) : Prop :=
  ∃ iteration reason, .droppedBlock iteration r.id r.tag reason ∈ c.report.diagnostics

/-- The nodes of a rebuilt graph are those of the records that survive. -/
theorem Rebuilt.mem_ids_walk_iff (hg : g.UsesBuiltIns) {l : Lifted} {resolver : Resolver}
    {t : Nested Record} {f : Nested Node} (hrebuilt : Rebuilt g d l t f)
    (hdecodes : Lift.Decodes g resolver .root t f) {id : String} :
    id ∈ (assemble g.platform l).1.walk.map Node.id ↔
      ∃ place r, t.Lies Record.id .root place r ∧ (g.survivor? place r).isSome = true ∧
        r.id = id := by
  have hplaces : id ∈ presentIds l.levels ↔
      ∃ place, (id, place) ∈ Lift.places .root (f.map .ready) := by
    rw [presentIds, hrebuilt.mirrors.levels, List.flatMap_map, List.mem_flatMap]
    constructor
    · rintro ⟨e, he, hid⟩
      exact ⟨e.1, Lift.mem_places.mpr ⟨e, he, rfl, hid⟩⟩
    · rintro ⟨place, hplace⟩
      obtain ⟨e, he, -, hid⟩ := Lift.mem_places.mp hplace
      exact ⟨e, he, hid⟩
  have hwalk := hrebuilt.ids_walk_perm (hdecodes.isFresh hg)
  rw [← hwalk.mem_iff, hplaces]
  simp only [hdecodes.mem_places_iff hg]

/-- If no two records share an id, the graph has a node for a record exactly if it survives. -/
theorem hasNode_iff (hg : g.UsesBuiltIns) {l : Lifted} {resolver : Resolver}
    {t : Nested Record} {f : Nested Node} (hrebuilt : Rebuilt g d l t f)
    (hdecodes : Lift.Decodes g resolver .root t f) (hids : d.DistinctIds)
    (hsubset : t.members ⊆ d.allRecords) {r : Record} (hr : r ∈ d.allRecords) :
    HasNode ⟨g.platform, (assemble g.platform l).1, (assemble g.platform l).2⟩ r ↔
      Document.Survives g t r := by
  rw [HasNode, hrebuilt.mem_ids_walk_iff hg hdecodes]
  constructor
  · rintro ⟨place, other, hlies, hsome, hid⟩
    have hmember := hsubset (Document.Survives.mem_members ⟨place, hlies, hsome⟩)
    obtain rfl := List.inj_on_of_nodup_map hids hmember hr hid
    exact ⟨place, hlies, hsome⟩
  · rintro ⟨place, hlies, hsome⟩
    exact ⟨place, r, hlies, hsome, rfl⟩

/-- The findings about dropped blocks are made while a document is lifted. -/
theorem namesDropped_iff (p : Platform) (l : Lifted) (r : Record) :
    NamesDropped ⟨p, (assemble p l).1, (assemble p l).2⟩ r ↔ r.label ∈ l.harvest.drops := by
  constructor
  · rintro ⟨iteration, reason, hfound⟩
    rw [diagnostics_assemble] at hfound
    simp only [List.mem_append] at hfound
    rcases hfound with hlift | (hedge | hreference) | hassembly
    · exact List.mem_filterMap.mpr ⟨_, hlift, rfl⟩
    · cases kind_droppedEdges _ _ hedge
    · cases kind_danglingReferences _ _ hreference
    · cases Assembly.forall_ofLevel Assembly.isAboutRecord_edgeFindings _ _ _ _ _ hassembly
  · intro hdrop
    obtain ⟨found, hfound, hlabel⟩ := List.mem_filterMap.mp hdrop
    cases found with
    | droppedBlock iteration node tag reason =>
      obtain ⟨rfl, rfl⟩ := Prod.mk.inj (Option.some.inj hlabel)
      refine ⟨iteration, reason, ?_⟩
      rw [diagnostics_assemble]
      exact List.mem_append_left _ hfound
    | _ => cases hlabel

/-- If no two records share an id, a record is listed as dropped exactly if it is one of the
dropped records. -/
theorem mem_droppedBlocks_iff (hg : g.UsesBuiltIns) {l : Lifted}
    (hlifted : Lifted.ofDocument? g d = some l)
    (hids : d.DistinctIds) {t : Nested Record} (ht : d.Unrolls g d.records t) {r : Record}
    (hr : r ∈ d.allRecords) :
    r.id ∈ (assemble g.platform l).2.droppedBlocks ↔ r ∈ d.droppedRecords g t := by
  have hreport : (assemble g.platform l).2.droppedBlocks = l.harvest.report.droppedBlocks :=
    List.append_nil _
  have hsubset := Document.droppedRecords_subset hg ht (hids.idsApart hg t ht)
  rw [hreport, (Lifted.ofDocument?_drops hg hlifted ht).1.mem_iff]
  exact hids.key_mem_map_iff hsubset (fun _ _ hid => hid) hr

/-- A record becomes a node or is reported as a dropped block, and never both, exactly if it
does not stand in an overlooked body. A dropped block is listed if and only if a finding
names it. -/
structure Reports (g : Registry) (d : Document) (t : Nested Record) (c : Conversion)
    (r : Record) : Prop where
  named : r.id ∈ c.report.droppedBlocks ↔ c.NamesDropped r
  apart : ¬ (c.HasNode r ∧ r.id ∈ c.report.droppedBlocks)
  found : (c.HasNode r ∨ r.id ∈ c.report.droppedBlocks) ↔
    ¬ Document.StandsIn (d.overlookedBodies g t) r

/-- Every record that is no loop-start record is reported, unless its body is overlooked. -/
theorem ofDocument_reports (hg : Registry.Derived p g) (hcheck : d.check = .ok ())
    (hacyclic : d.SectionsAcyclic g) (hids : d.DistinctIds) :
    ∃ t c, d.Unrolls g d.records t ∧ ofDocument g d = .ok c ∧
      ∀ r ∈ d.allRecords, p.isPseudoTag r.tag = false → Reports g d t c r := by
  have hbuiltIns := hg.usesBuiltIns
  obtain ⟨resolver, t, f, l, hresolver, ht, hdecodes, hlifted, hrebuilt, hc⟩ :=
    exists_rebuilt hbuiltIns hcheck hacyclic (hids.idsApart hbuiltIns)
  have hmembers := hids.idsApart hbuiltIns t ht
  have hplatform := hg.platform_eq
  refine ⟨t, _, ht, hc, fun r hr hplain => ?_⟩
  have hlabels := (Lifted.ofDocument?_drops hbuiltIns hlifted ht).2
  have hsubset := Document.droppedRecords_subset hbuiltIns ht hmembers
  have hnode := hasNode_iff hbuiltIns hrebuilt hdecodes hids
    (Document.members_subset hbuiltIns ht hmembers) hr
  have hlisted := mem_droppedBlocks_iff hbuiltIns hlifted hids ht hr
  have hnamed : NamesDropped
      ⟨g.platform, (assemble g.platform l).1, (assemble g.platform l).2⟩ r ↔
        r ∈ d.droppedRecords g t := by
    rw [namesDropped_iff, hlabels.mem_iff]
    exact hids.key_mem_map_iff hsubset (fun _ _ hlabel => (Prod.mk.inj hlabel).1) hr
  obtain ⟨hapart, hfates⟩ := hids.fates hbuiltIns ht hr (hplatform ▸ hplain)
  exact ⟨hlisted.trans hnamed.symm, by rwa [hnode, hlisted], by rwa [hnode, hlisted]⟩

theorem ofDocument_reports_scattered :
    Registry.Derived .coze (.withDefaults .coze) ∧ Document.scattered.check = .ok () ∧
      Document.scattered.SectionsAcyclic (.withDefaults .coze) ∧
        Document.scattered.DistinctIds ∧
          ∃ t c, Document.scattered.Unrolls (.withDefaults .coze) Document.scattered.records t ∧
            ofDocument (.withDefaults .coze) Document.scattered = .ok c ∧
            ∀ r ∈ Document.scattered.allRecords, Platform.coze.isPseudoTag r.tag = false →
              Reports (.withDefaults .coze) Document.scattered t c r := by
  have hcheck : Document.scattered.check = .ok () := by decide +kernel
  have hacyclic : Document.scattered.SectionsAcyclic (.withDefaults .coze) :=
    Document.sectionsAcyclic_of_plain (by decide +kernel)
  have hids : Document.scattered.DistinctIds := by decide +kernel
  exact ⟨.defaults, hcheck, hacyclic, hids,
    ofDocument_reports .defaults hcheck hacyclic hids⟩

/-- The block on an end node is lost: it has no node, and nothing is reported. -/
theorem blockOnEnd_lost :
    Document.blockOnEnd.check = .ok () ∧
      Document.blockOnEnd.SectionsAcyclic (.withDefaults .coze) ∧
        Document.blockOnEnd.DistinctIds ∧
          ∃ c, ofDocument (.withDefaults .coze) Document.blockOnEnd = .ok c ∧
            ∃ r ∈ Document.blockOnEnd.allRecords, Platform.coze.isPseudoTag r.tag = false ∧
              ¬ c.HasNode r ∧ r.id ∉ c.report.droppedBlocks ∧ ¬ c.NamesDropped r := by
  have hresult : (ofDocument (.withDefaults .coze) Document.blockOnEnd).toOption.map
      (fun c => (c.graph.walk.map Node.id, c.report.droppedBlocks, c.report.diagnostics)) =
        some (["end"], [], []) := by
    decide +kernel
  obtain ⟨c, hc, hfound⟩ := Option.map_eq_some_iff.mp hresult
  obtain ⟨hnodes, hrest⟩ := Prod.mk.inj hfound
  obtain ⟨hdropped, hnone⟩ := Prod.mk.inj hrest
  refine ⟨by decide +kernel, Document.sectionsAcyclic_of_eq_nil rfl, by decide +kernel,
    c, eq_ok_of_toOption_eq_some hc, .bare "x" "5", ?_, by decide +kernel, ?_, ?_, ?_⟩
  · have hall : Document.blockOnEnd.allRecords =
        Document.blockOnEnd.records ++ [.bare "x" "5"] := by
      simp [Document.allRecords, Document.lists, Document.bodies, Document.blockOnEnd,
        Record.bodies, Blocks.bodies, Record.bare]
    rw [hall]
    exact List.mem_append_right _ (List.mem_singleton_self _)
  · rw [HasNode, hnodes]
    decide +kernel
  · rw [hdropped]
    exact List.not_mem_nil
  · rintro ⟨iteration, reason, hfinding⟩
    rw [hnone] at hfinding
    cases hfinding

end Conversion

end WorkflowGraph
