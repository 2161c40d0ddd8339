/-
# What a report counts

A report counts the nodes that were decoded, and lists the records that were replaced and those
that were left out. Both lists can be read off the findings, in their order. A graph holds the
nodes that were decoded and the placeholders on its root, and nothing else, so its size is known
from the report.
-/

import WorkflowGraph.Proofs.CarriedPointers
import WorkflowGraph.Proofs.RecordFindings
import WorkflowGraph.Proofs.RunNotes

namespace WorkflowGraph

/-- The node that was replaced, if the finding tells of one. -/
def Diagnostic.replaced? : Diagnostic → Option String
  | .unsupportedNode node .. => some node
  | _ => none

/-- The node that was left out, if the finding tells of one. -/
def Diagnostic.leftOut? : Diagnostic → Option String
  | .droppedBlock _ node .. => some node
  | _ => none

theorem Diagnostic.replaced?_eq_none {found : Diagnostic} (habout : found.isAboutRecord = false) :
    found.replaced? = none := by
  cases found <;> first | rfl | cases habout

theorem Diagnostic.leftOut?_eq_none {found : Diagnostic} (habout : found.isAboutRecord = false) :
    found.leftOut? = none := by
  cases found <;> first | rfl | cases habout

/-- A finding of another kind is not about a record. -/
theorem Diagnostic.isAboutRecord_eq_false {found : Diagnostic}
    (hkind : found.kind ≠ .unsupportedConstruct) : found.isAboutRecord = false :=
  Bool.eq_false_iff.mpr fun habout => hkind (kind_of_isAboutRecord habout)

namespace Report

/-- The lists of a report are those that its findings give, in their order. -/
structure ListsFindings (r : Report) : Prop where
  placeholders : r.placeholders = r.diagnostics.filterMap Diagnostic.replaced?
  droppedBlocks : r.droppedBlocks = r.diagnostics.filterMap Diagnostic.leftOut?

/-- A property that the reports on single records have, and that reports keep when one follows
the other. -/
structure Accrues (P : Report → Prop) : Prop where
  empty : P .empty
  append : ∀ a b, P a → P b → P (a ++ b)
  node : P { Report.empty with converted := 1 }
  replaced : ∀ (r : Record) (reason : String),
    P ⟨[.unsupportedNode r.id r.tag reason], 0, [r.id], []⟩
  leftOut : ∀ (owner : String) (r : Record) (reason : String),
    P ⟨[.droppedBlock owner r.id r.tag reason], 0, [], [r.id]⟩

theorem accrues_listsFindings : Accrues ListsFindings where
  empty := ⟨rfl, rfl⟩
  append := fun _ _ ha hb =>
    ⟨(congrArg₂ (· ++ ·) ha.placeholders hb.placeholders).trans List.filterMap_append.symm,
      (congrArg₂ (· ++ ·) ha.droppedBlocks hb.droppedBlocks).trans List.filterMap_append.symm⟩
  node := ⟨rfl, rfl⟩
  replaced := fun _ _ => ⟨rfl, rfl⟩
  leftOut := fun _ _ _ => ⟨rfl, rfl⟩

theorem listsFindings_ofDiagnostics {ds : List Diagnostic}
    (hds : ∀ found ∈ ds, found.isAboutRecord = false) : (ofDiagnostics ds).ListsFindings where
  placeholders := (List.filterMap_eq_nil_iff.mpr fun found hfound =>
    Diagnostic.replaced?_eq_none (hds found hfound)).symm
  droppedBlocks := (List.filterMap_eq_nil_iff.mpr fun found hfound =>
    Diagnostic.leftOut?_eq_none (hds found hfound)).symm

end Report

/-! What holds of the reports on single records holds of the report on a whole document. -/
section Accrues

variable {P : Report → Prop} (hP : Report.Accrues P)

include hP

namespace Harvest

mutual

theorem accrues_ofUnlifted (p : Platform) (owner : String) :
    (b : Blocks) → P (ofUnlifted p owner b).report
  | ⟨records, _⟩ => by
      rw [ofUnlifted]
      exact hP.append _ _ hP.empty (accrues_ofUnliftedRecords p owner records)

theorem accrues_ofUnliftedRecords (p : Platform) (owner : String) :
    (rs : List Record) → P (ofUnliftedRecords p owner rs).report
  | [] => by
      rw [ofUnliftedRecords]
      exact hP.empty
  | ⟨id, tag, title, params, inputs, outputs, blocks, presentation⟩ :: rs => by
      have hrest := accrues_ofUnliftedRecords p owner rs
      have hinner := accrues_ofUnliftedInner p id blocks
      rw [ofUnliftedRecords]
      split
      · exact hP.append _ _ hP.empty hrest
      · exact hP.append _ _ (hP.append _ _ (hP.leftOut owner _ _) hinner) hrest

theorem accrues_ofUnliftedInner (p : Platform) (owner : String) :
    (b : Option Blocks) → P (ofUnliftedInner p owner b).report
  | none => by
      rw [ofUnliftedInner]
      exact hP.empty
  | some b => by
      rw [ofUnliftedInner]
      exact accrues_ofUnlifted p owner b

end

end Harvest

namespace Lift

variable (g : Registry) (d : Document) (resolver : Resolver)

theorem accrues_decodeRecord (level : Level) (removed : List String) (r : Record) :
    P (decodeRecord g resolver level removed r).2.report := by
  cases hdecode : g.decode (context g resolver removed) r with
  | ok n =>
      rw [decodeRecord_of_ok hdecode]
      exact hP.node
  | error e =>
      cases level with
      | root =>
          rw [decodeRecord_root_of_error hdecode]
          exact hP.replaced r e.message
      | body owner =>
          rw [decodeRecord_body_of_error hdecode]
          exact hP.leftOut owner r e.message

variable {inner : Level → List String → Blocks → Option Harvest}
  (hinner : ∀ level removed body h, inner level removed body = some h → P h.report)

include hinner

theorem accrues_bodyHarvest {removed : List String} {r : Record} {n : Option Node} {h : Harvest}
    (hbody : bodyHarvest g d inner removed r n = some h) : P h.report := by
  unfold bodyHarvest at hbody
  split at hbody
  · split at hbody
    · obtain ⟨inside, hinside, rfl⟩ := Option.map_eq_some_iff.mp hbody
      exact hP.append _ _ hP.empty (hinner _ _ _ _ hinside)
    · obtain rfl := Option.some.inj hbody
      exact hP.empty
  · obtain rfl := Option.some.inj hbody
    exact Harvest.accrues_ofUnliftedInner hP _ _ _

theorem accrues_record {level : Level} {removed : List String} {r : Record} {slots : List Slot}
    {h : Harvest} (hrecord : record g d resolver inner level removed r = some (slots, h)) :
    P h.report := by
  unfold record at hrecord
  split at hrecord
  · obtain ⟨rfl, rfl⟩ := Prod.mk.inj (Option.some.inj hrecord)
    exact hP.empty
  · split at hrecord
    · obtain ⟨rfl, rfl⟩ := Prod.mk.inj (Option.some.inj hrecord)
      exact hP.empty
    · obtain ⟨body, hbody, hpair⟩ := Option.map_eq_some_iff.mp hrecord
      obtain ⟨rfl, rfl⟩ := Prod.mk.inj hpair
      exact hP.append _ _ (accrues_decodeRecord hP g resolver level removed r)
        (accrues_bodyHarvest hP g d hinner hbody)

theorem accrues_records (level : Level) (rs : List Record) : ∀ removed slots h,
    records g d resolver inner level removed rs = some (slots, h) → P h.report := by
  induction rs with
  | nil =>
      intro removed slots h hrecords
      obtain ⟨rfl, rfl⟩ := Prod.mk.inj (Option.some.inj hrecords)
      exact hP.empty
  | cons r rs ih =>
      intro removed slots h hrecords
      obtain ⟨here, hhere, more, rest, hrecord, hmore, rfl, rfl⟩ := records_cons_eq_some hrecords
      exact hP.append _ _ (accrues_record hP g d resolver hinner hrecord) (ih _ _ _ hmore)

omit hinner

theorem accrues_within (n : Nat) : ∀ level removed body h,
    within g d resolver n level removed body = some h → P h.report := by
  induction n with
  | zero => nofun
  | succ n ih =>
      intro level removed body h hwithin
      obtain ⟨slots, inside, hrecords, rfl⟩ := within_succ_eq_some hwithin
      have hinside := accrues_records hP g d resolver ih level body.records _ _ _ hrecords
      exact hP.append _ _ (hP.append _ _ hP.empty hinside) hP.empty

theorem accrues_orphans (used : List String) : P (orphans g d used).report := by
  unfold orphans
  induction d.sections.entries.filter fun entry => !used.contains entry.1 with
  | nil => exact hP.empty
  | cons entry rest ih =>
      exact hP.append _ _ (Harvest.accrues_ofUnlifted hP g.platform entry.1 entry.2) ih

theorem accrues_finishSlots (level : Level) (slots : List Slot) :
    ∀ removed, P (finishSlots g resolver level removed slots).2.report := by
  induction slots with
  | nil => exact fun _ => hP.empty
  | cons slot slots ih =>
      intro removed
      cases slot with
      | ready n => exact ih removed
      | deferred r =>
          exact hP.append _ _ (accrues_decodeRecord hP g resolver level removed r) (ih _)

theorem accrues_finishLevels (levels : List (Level × List Slot)) :
    ∀ removed, P (finishLevels g resolver removed levels).2.report := by
  induction levels with
  | nil => exact fun _ => hP.empty
  | cons e levels ih =>
      intro removed
      exact hP.append _ _ (accrues_finishSlots hP g resolver e.1 e.2 removed) (ih _)

end Lift

theorem Lifted.ofDocument?_accrues {g : Registry} {d : Document} {l : Lifted}
    (hlifted : ofDocument? g d = some l) : P l.harvest.report := by
  obtain ⟨resolver, root, -, hroot, _, rfl, rfl⟩ := ofDocument?_eq_some hlifted
  have hinside := Lift.accrues_within hP g d resolver _ _ _ _ _ hroot
  exact hP.append _ _ (hP.append _ _ hinside (Lift.accrues_orphans hP g d root.usedSections))
    (Lift.accrues_finishLevels hP g resolver _ _)

end Accrues

/-! ## The number of nodes -/

namespace Nested

/-- What lies on the root is a member of the outermost list. -/
theorem Lies.mem_roots {α : Type} {name : α → String} {t : Nested α} {a : α}
    (hlies : t.Lies name .root .root a) : a ∈ t.roots := by
  rcases lies_iff.mp hlies with ⟨e, he, hroot, -⟩ | ⟨-, ha⟩
  · exact absurd (List.mem_map.mpr ⟨e, he, hroot⟩) (t.root_not_mem_bodies name)
  · exact ha

end Nested

namespace Document

/-- A record is replaced if it stands on the root and cannot be decoded. -/
theorem of_mem_replacedRecords {g : Registry} {t : Nested Record} {r : Record}
    (hr : r ∈ replacedRecords g t) :
    r ∈ t.roots ∧ g.platform.isPseudoTag r.tag = false ∧ g.face? r = none := by
  obtain ⟨⟨place, r⟩, hkept, rfl⟩ := List.mem_map.mp hr
  obtain ⟨hlocated, hreplaced⟩ := List.mem_filter.mp hkept
  simp only [isReplaced, Bool.and_eq_true, beq_iff_eq, Bool.not_eq_true',
    Option.isNone_iff_eq_none] at hreplaced
  obtain ⟨⟨rfl, hplain⟩, hface⟩ := hreplaced
  exact ⟨(Nested.mem_located_iff.mp hlocated).mem_roots, hplain, hface⟩

/-- A record of a level that becomes a node there. -/
def isKept (g : Registry) (e : Level × Record) : Bool :=
  (g.survivor? e.1 e.2).isSome

end Document

namespace Harvest

/-- A mark for each node that a harvest reports, be it decoded or a placeholder. -/
def marks (h : Harvest) : List Unit :=
  List.replicate (h.report.converted + h.report.placeholders.length) ()

theorem collects_marks (p : Platform) : Collects p marks (fun _ _ => []) fun _ => [] where
  empty := rfl
  append := by
    intro a b
    have hsum : (a ++ b).report.converted + (a ++ b).report.placeholders.length =
        a.report.converted + a.report.placeholders.length +
          (b.report.converted + b.report.placeholders.length) := by
      show a.report.converted + b.report.converted +
        (a.report.placeholders ++ b.report.placeholders).length = _
      rw [List.length_append]
      omega
    rw [marks, hsum, List.replicate_add]
    rfl
  links := fun _ _ => rfl
  start := fun _ _ => rfl
  block := fun _ _ _ => rfl

end Harvest

namespace Lift

variable {g : Registry} {resolver : Resolver}

/-- A record reports one node if it becomes one, and none otherwise. -/
theorem Owns.marks {level : Level} {r : Record} {h : Harvest} (hown : Owns g level r h) :
    h.marks = if Document.isKept g (level, r) then [()] else [] := by
  cases hown with
  | start hpseudo =>
    have hgone : Document.isKept g (level, r) = false := by
      simp [Document.isKept, Registry.survivor?, hpseudo]
    rw [hgone]
    rfl
  | node hplain hface =>
    obtain ⟨face, hface⟩ := Option.isSome_iff_exists.mp hface
    have hkept : Document.isKept g (level, r) = true := by
      simp [Document.isKept, Registry.survivor?, hplain, hface]
    rw [hkept]
    rfl
  | replaced hplain hface hroot =>
    have hkept : Document.isKept g (level, r) = true := by
      simp [Document.isKept, Registry.survivor?, hplain, hface, hroot]
    rw [hkept]
    rfl
  | leftOut hplain hface hbody =>
    have hgone : Document.isKept g (level, r) = false := by
      simp [Document.isKept, Registry.survivor?, hplain, hface, hbody]
    rw [hgone]
    rfl

/-- The nodes of a nesting are those of the records that are kept, in document order. -/
theorem Decodes.map_id_members (hg : g.UsesBuiltIns) {level : Level} {t : Nested Record}
    {f : Nested Node} (hdecodes : Decodes g resolver level t f) :
    f.members.map Node.id =
      ((t.located Record.id level).filter (Document.isKept g)).map fun e => e.2.id := by
  induction hdecodes with
  | nil => rfl
  | @skip level r t f hnone _ ih =>
      have hgone : Document.isKept g (level, r) = false := by simp [Document.isKept, hnone]
      rw [Nested.located, List.filter_cons_of_neg (by simp [hgone]), ih]
  | @leaf level r n t f hn _ ih =>
      have hkept : Document.isKept g (level, r) = true := by
        simp [Document.isKept, hn.survivor?_eq hg]
      rw [Nested.located, List.filter_cons_of_pos hkept, Nested.members, List.map_cons,
        List.map_cons, ih, hn.id_eq hg]
  | @loop level r n inner t body f _ hn _ _ ihInner ihRest =>
      have hkept : Document.isKept g (level, r) = true := by
        simp [Document.isKept, hn.survivor?_eq hg]
      rw [Nested.located, List.filter_cons_of_pos hkept, List.filter_append, Nested.members,
        List.map_cons, List.map_cons, List.map_append, List.map_append, ihInner, ihRest,
        hn.id_eq hg]

end Lift

/-- A run reports as many nodes as there are records that are kept. -/
theorem Lifted.ofDocument?_marks {g : Registry} {d : Document} {l : Lifted} {t : Nested Record}
    (hg : g.UsesBuiltIns) (hlifted : ofDocument? g d = some l)
    (ht : d.Unrolls g d.records t) :
    l.harvest.report.converted + l.harvest.report.placeholders.length =
      ((t.located Record.id .root).filter (Document.isKept g)).length := by
  obtain ⟨resolver, _, hresolver, -⟩ := ofDocument?_eq_some hlifted
  have htallied : ∀ a b : Harvest, a.tally = b.tally → a.marks.Perm b.marks := by
    intro a b htally
    have hconverted : a.report.converted = b.report.converted :=
      congrArg (fun noted => noted.2.2.2.2) htally
    have hplaceholders : a.report.placeholders.Perm b.report.placeholders :=
      Multiset.coe_eq_coe.mp (congrArg (fun noted => noted.2.2.1) htally)
    rw [Harvest.marks, Harvest.marks, hconverted, hplaceholders.length_eq]
  have hall := ofDocument?_notes hg hlifted hresolver ht (Harvest.collects_marks _) htallied
  have hown : ∀ e : Level × Record, (Lift.own g resolver e.1 e.2).marks =
      if Document.isKept g e then [()] else [] :=
    fun e => (Lift.owns_own hg resolver e.1 e.2).marks
  have hbodies : Blocks.notes (fun _ _ => ([] : List Unit)) (fun _ => [])
      (d.droppedBodies g t) = [] := by
    simp [Blocks.notes]
  rw [funext hown, flatMap_ite_singleton, hbodies, List.append_nil] at hall
  simpa [Harvest.marks] using hall.length_eq

namespace Conversion

variable {p : Platform} {g : Registry} {d : Document} {l : Lifted} {t : Nested Record}
  {f : Nested Node} {resolver : Resolver}

/-- The findings made after a document is lifted are not about records. -/
theorem isAboutRecord_of_mem (part : EdgePartition) (t : LevelTable) {found : Diagnostic}
    (hfound : found ∈ droppedEdges part ++ danglingReferences l.levels ++
      (Assembly.ofLevel p part .root t).diagnostics) : found.isAboutRecord = false := by
  simp only [List.mem_append] at hfound
  rcases hfound with (hedge | hreference) | hassembly
  · apply Diagnostic.isAboutRecord_eq_false
    rw [kind_droppedEdges _ found hedge]
    decide
  · apply Diagnostic.isAboutRecord_eq_false
    rw [kind_danglingReferences _ found hreference]
    decide
  · exact Assembly.forall_ofLevel Assembly.isAboutRecord_edgeFindings _ _ _ _ found hassembly

theorem listsFindings_assemble (hlifted : Lifted.ofDocument? g d = some l) :
    (assemble g.platform l).2.ListsFindings := by
  apply Report.accrues_listsFindings.append
  · exact Lifted.ofDocument?_accrues Report.accrues_listsFindings hlifted
  · apply Report.listsFindings_ofDiagnostics
    intro found hfound
    exact isAboutRecord_of_mem _ _ hfound

theorem Rebuilt.nodeCount_eq (hrebuilt : Rebuilt g d l t f) (hfresh : f.IsFresh) :
    (assemble g.platform l).1.nodeCount = f.members.length := by
  have hids := congrArg List.length (Assembly.map_walkNodes_attached g.platform
    (partition g.platform l) (Node.withBody_id _) (hfresh.clean (presentIds l.levels)))
  rw [List.length_map, List.length_map, Nested.clean, Nested.members_map, List.length_map] at hids
  rw [Graph.nodeCount, hrebuilt.graph, Graph.walk_eq]
  exact hids

/-- Each placeholder is a code node of the root. -/
theorem exists_code_of_mem_placeholders (hg : g.UsesBuiltIns)
    (hlifted : Lifted.ofDocument? g d = some l) (ht : d.Unrolls g d.records t)
    (hdecodes : Lift.Decodes g resolver .root t f) (hmirrors : l.Mirrors g d t f) {id : String}
    (hid : id ∈ l.harvest.report.placeholders) :
    ∃ n ∈ (assemble g.platform l).1.nodes, n.id = id ∧ n.kind = .code := by
  rw [(Lifted.ofDocument?_placeholders hg hlifted ht).mem_iff] at hid
  obtain ⟨r, hr, rfl⟩ := List.mem_map.mp hid
  obtain ⟨hroot, hplain, hface⟩ := Document.of_mem_replacedRecords hr
  rw [ht.roots_eq] at hroot
  have hsurvives : r ∈ g.survivors .root d.records :=
    List.mem_filter.mpr ⟨hroot, by simp [Registry.survivor?, hplain, hface]⟩
  obtain ⟨n, hn, own, hbecomes, hfinishes⟩ :=
    exists_of_forall₂_of_mem (forall₂_finishes_root hg hmirrors ht hdecodes) hsurvives
  obtain ⟨-, rfl⟩ := hbecomes.eq_placeholder hg hface
  exact ⟨n, hn, hfinishes.id_eq, hfinishes.kind_eq⟩

/-- The numbers and the lists of a report agree with its findings and with the graph. -/
structure CountsNodes (c : Conversion) : Prop where
  nodes : c.graph.nodeCount = c.report.converted + c.report.placeholders.length
  findings : c.report.ListsFindings
  placeholders : ∀ id ∈ c.report.placeholders, ∃ n ∈ c.graph.nodes, n.id = id ∧ n.kind = .code

/-- The nodes of a graph are those that the report counts as decoded and those that it lists as
placeholders, which are code nodes of the root. The placeholders and the dropped blocks of the
report are those that its findings name, one after the other. -/
theorem ofDocument_countsNodes {c : Conversion} (hg : Registry.Derived p g)
    (hapart : d.LoopsApart g) (hc : ofDocument g d = .ok c) : c.CountsNodes := by
  have hbuiltIns := hg.usesBuiltIns
  obtain ⟨resolver, t, f, l, -, ht, hdecodes, hlifted, hrebuilt, rfl⟩ :=
    exists_rebuilt_of_loopsApart hbuiltIns hapart hc
  -- what is found after the document is lifted adds to the findings only
  have hconverted : (assemble g.platform l).2.converted = l.harvest.report.converted :=
    Nat.add_zero _
  have hlisted : (assemble g.platform l).2.placeholders = l.harvest.report.placeholders :=
    List.append_nil _
  refine ⟨?_, listsFindings_assemble hlifted, fun id hid => ?_⟩
  · have hmembers := congrArg List.length (hdecodes.map_id_members hbuiltIns)
    rw [List.length_map, List.length_map] at hmembers
    show (assemble g.platform l).1.nodeCount =
      (assemble g.platform l).2.converted + (assemble g.platform l).2.placeholders.length
    rw [hconverted, hlisted, Lifted.ofDocument?_marks hbuiltIns hlifted ht, ← hmembers,
      hrebuilt.nodeCount_eq (hdecodes.isFresh hbuiltIns)]
  · have hplaceholder : id ∈ l.harvest.report.placeholders := hlisted ▸ hid
    exact exists_code_of_mem_placeholders hbuiltIns hlifted ht hdecodes hrebuilt.mirrors
      hplaceholder

/-- Seven nodes, one of them a placeholder on the root, and a block dropped from a loop. -/
theorem ofDocument_countsNodes_nestedLoops :
    Registry.Derived .coze (.withDefaults .coze) ∧
      Document.nestedLoops.LoopsApart (.withDefaults .coze) ∧
        ∃ c, ofDocument (.withDefaults .coze) Document.nestedLoops = .ok c ∧
          c.graph.nodeCount = 7 ∧
          c.report.diagnostics.filterMap Diagnostic.replaced? = ["rest"] ∧
          c.report.diagnostics.filterMap Diagnostic.leftOut? = ["odd"] ∧
          ∃ n ∈ c.graph.nodes, n.id = "rest" ∧ n.kind = .code := by
  have hresult : (ofDocument (.withDefaults .coze) Document.nestedLoops).toOption.map (fun c =>
      (c.report.converted, c.report.placeholders, c.report.droppedBlocks)) =
        some (6, ["rest"], ["odd"]) := by
    decide +kernel
  obtain ⟨c, hfound, hreport⟩ := Option.map_eq_some_iff.mp hresult
  obtain ⟨hconverted, hlists⟩ := Prod.mk.inj hreport
  obtain ⟨hplaceholders, hdropped⟩ := Prod.mk.inj hlists
  have hc := eq_ok_of_toOption_eq_some hfound
  have hcounts := ofDocument_countsNodes .defaults Document.loopsApart_nestedLoops hc
  refine ⟨.defaults, Document.loopsApart_nestedLoops, c, hc, ?_, ?_, ?_, ?_⟩
  · rw [hcounts.nodes, hconverted, hplaceholders]
    rfl
  · rw [← hcounts.findings.placeholders, hplaceholders]
  · rw [← hcounts.findings.droppedBlocks, hdropped]
  · exact hcounts.placeholders "rest" (by rw [hplaceholders]; exact List.mem_singleton_self _)

end Conversion

end WorkflowGraph
