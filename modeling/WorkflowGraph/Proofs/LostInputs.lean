/-
# Inputs that are lost without a finding

If a conversion has no findings, every record of a lifted list was decoded and every
reference kept, and all that was removed are loop-start records. Most of these stand for
their loops, and pointers to them never name them. One that stands for no loop, as on the
root, is named by the pointers to it, and an end node leaves the inputs from it out without
a word. No other input is lost.
-/

import WorkflowGraph.Proofs.EndInputs
import WorkflowGraph.Proofs.ParsedRecords
import WorkflowGraph.Proofs.RenamedOutputs

namespace WorkflowGraph

/-! ## Findings about records -/

/-- The id of the record that a finding says was replaced or dropped. -/
def Diagnostic.lostRecord? : Diagnostic → Option String
  | .unsupportedNode node _ _ | .droppedBlock _ node _ _ => some node
  | _ => none

/-- The ids of the records that the findings say were replaced or dropped. -/
def Harvest.lost (h : Harvest) : List String :=
  h.report.diagnostics.filterMap Diagnostic.lostRecord?

/-- The finding for a dropped record says so. -/
theorem Harvest.collects_lost (p : Platform) : Collects p lost (fun _ _ => [])
    fun r => if p.isPseudoTag r.tag then [] else [r.id] where
  empty := rfl
  append := fun _ _ => List.filterMap_append
  links := fun _ _ => rfl
  start := fun r hpseudo => by rw [if_pos hpseudo]; rfl
  block := fun owner r hplain => by rw [if_neg (Bool.eq_false_iff.mp hplain)]; rfl

namespace Document

variable (g : Registry) (d : Document)

/-- A record should be decoded and cannot be. -/
def isUndecodable (r : Record) : Bool :=
  !g.platform.isPseudoTag r.tag && (g.face? r).isNone

/-- The records of which a run says that they were replaced or dropped. -/
def lostRecords (t : Nested Record) : List Record :=
  t.members.filter (isUndecodable g) ++
    (d.droppedBodies g t).flatMap fun entry => entry.2.reported g.platform

end Document

/-- A record says that it is lost exactly if it cannot be decoded. -/
theorem Lift.Owns.lost {g : Registry} {level : Level} {r : Record} {h : Harvest}
    (hown : Owns g level r h) :
    h.lost = if Document.isUndecodable g r then [r.id] else [] := by
  cases hown with
  | start hpseudo =>
    rw [if_neg (by simp [Document.isUndecodable, hpseudo])]
    rfl
  | node hplain hface =>
    rw [if_neg (by simp [Document.isUndecodable, Option.isSome_iff_ne_none.mp hface])]
    rfl
  | replaced hplain hface _ =>
    rw [if_pos (by simp [Document.isUndecodable, hplain, hface])]
    rfl
  | leftOut hplain hface _ =>
    rw [if_pos (by simp [Document.isUndecodable, hplain, hface])]
    rfl

namespace Lifted

variable {g : Registry} {d : Document} {l : Lifted} {t : Nested Record}

/-- A run has a finding for every record that it replaces or drops. -/
theorem ofDocument?_lost (hg : g.UsesBuiltIns) (hlifted : ofDocument? g d = some l)
    (ht : d.Unrolls g d.records t) :
    l.harvest.lost.Perm ((d.lostRecords g t).map Record.id) := by
  have hall := ofDocument?_recordNotes (q := fun e => Document.isUndecodable g e.2) hg hlifted ht
    (Harvest.collects_lost _) (fun a b htally => (Multiset.coe_eq_coe.mp
      (congrArg (fun noted => noted.2.1) htally)).filterMap _) fun _ _ _ hown => hown.lost
  have hmembers : ((t.located Record.id .root).filter fun e =>
      Document.isUndecodable g e.2).map Prod.snd = t.members.filter (Document.isUndecodable g) := by
    rw [← t.map_snd_located Record.id .root, List.filter_map]
    rfl
  rwa [hmembers] at hall

/-- A run without findings loses no record. -/
theorem lostRecords_eq_nil (hg : g.UsesBuiltIns) (hlifted : ofDocument? g d = some l)
    (ht : d.Unrolls g d.records t) (hclean : l.harvest.report.diagnostics = []) :
    d.lostRecords g t = [] := by
  have hperm := ofDocument?_lost hg hlifted ht
  rw [Harvest.lost, hclean, List.filterMap_nil] at hperm
  exact List.map_eq_nil_iff.mp hperm.nil_eq.symm

/-- Where no record is lost, the lifted records are decoded, but for the loop-start records. -/
theorem isSome_face?_of_mem_members (hnone : d.lostRecords g t = []) {r : Record}
    (hr : r ∈ t.members) (hplain : g.platform.isPseudoTag r.tag = false) :
    (g.face? r).isSome = true := by
  have hkept := List.filter_eq_nil_iff.mp (List.append_eq_nil_iff.mp hnone).1 r hr
  simpa [Document.isUndecodable, hplain, Option.isSome_iff_ne_none] using hkept

/-- And only loop-start records are removed. -/
theorem exists_start_of_mem_removed (hg : g.UsesBuiltIns) (hlifted : ofDocument? g d = some l)
    (ht : d.Unrolls g d.records t) (hnone : d.lostRecords g t = []) {id : String}
    (hid : id ∈ l.harvest.removed) :
    ∃ r ∈ d.allRecords, g.platform.isPseudoTag r.tag = true ∧ r.id = id := by
  obtain ⟨r, hr, rfl⟩ := List.mem_map.mp ((ofDocument?_removed hg hlifted ht).subset hid)
  refine ⟨r, Document.removedRecords_subset ht hr, ?_, rfl⟩
  by_contra hplain
  have hplain := Bool.eq_false_iff.mpr hplain
  rcases List.mem_append.mp hr with hmember | hdropped
  · obtain ⟨hin, hgone⟩ := List.mem_filter.mp hmember
    have hface := isSome_face?_of_mem_members hnone hin hplain
    simp [Document.isGone, hplain, Option.isSome_iff_ne_none.mp hface] at hgone
  · obtain ⟨entry, hentry, hin⟩ := List.mem_flatMap.mp hdropped
    have hreported := List.flatMap_eq_nil_iff.mp (List.append_eq_nil_iff.mp hnone).2 entry hentry
    have hkept := List.filter_eq_nil_iff.mp hreported r hin
    simp [hplain] at hkept

end Lifted

/-! ## Inputs of the nodes of a clean conversion -/

namespace Document

variable (g : Registry) (d : Document)

/-- An id is that of a loop-start record. -/
def namesStart (id : String) : Bool :=
  d.allRecords.any fun r => g.platform.isPseudoTag r.tag && r.id == id

/-- The producer that an input is resolved to is a loop-start record. -/
def losesInput (resolver : Resolver) (i : RecordInput) : Bool :=
  i.pointer?.any fun q => d.namesStart g (resolver.nodeId q.node)

variable {g d}

theorem namesStart_iff {id : String} : d.namesStart g id = true ↔
    ∃ r ∈ d.allRecords, g.platform.isPseudoTag r.tag = true ∧ r.id = id := by
  simp [namesStart]

end Document

/-- A producer is a loop-start record exactly if the pointer names one that stands for no
node. -/
theorem Survey.namesStart_nodeId_iff {p : Platform} {d : Document} {resolver : Resolver}
    (hids : d.DistinctIds) (hresolver : resolver? (.withDefaults p) d = some resolver)
    (id : String) : d.namesStart (.withDefaults p) (resolver.nodeId id) = true ↔
      d.namesStart (.withDefaults p) id = true ∧
        ∀ node, ¬ d.Calls (.withDefaults p) (.aliased id node) := by
  rcases nodeId_cases hresolver id with hcalls | ⟨hnone, hsame⟩
  · refine ⟨fun hstart => ?_, fun h => absurd hcalls (h.2 _)⟩
    obtain ⟨start, hin, hpseudo, hid⟩ := Document.namesStart_iff.mp hstart
    obtain ⟨r, hreached, hloop⟩ : ∃ r, d.ReachesLoop (.withDefaults p) r ∧
        r.id = resolver.nodeId id := by
      generalize resolver.nodeId id = node at hcalls
      cases hcalls with
      | start hreached _ => exact ⟨_, hreached, rfl⟩
      | named hreached _ _ => exact ⟨_, hreached, rfl⟩
    obtain rfl := List.inj_on_of_nodup_map hids hin hreached.mem_allRecords (hid.trans hloop.symm)
    rw [Registry.Derived.defaults.platform_eq,
      Registry.isPseudoTag_of_kind? hreached.kind?_eq] at hpseudo
    cases hpseudo
  · rw [hsame]
    exact ⟨fun hstart => ⟨hstart, hnone⟩, And.left⟩

theorem DecodeContext.name_input (ctx : DecodeContext) (i : RecordInput) :
    (ctx.input i).name = i.name := by
  unfold input
  cases i.value <;> rfl

theorem Input.names_of_forall₂ {means : Pointer → Reference → Prop} {is : List RecordInput}
    {js : List Input} (hinputs : List.Forall₂ (Input.Captures means) is js) :
    js.map Input.name = is.map RecordInput.name := by
  induction hinputs with
  | nil => rfl
  | cons hhead _ ih => rw [List.map_cons, List.map_cons, hhead.1, ih]

/-- A node without findings keeps all of its inputs. -/
theorem Dangling.filter_inputs_of_nodeFindings_eq_nil {present : List String} {n : Node}
    (hnone : nodeFindings present n = []) :
    n.inputs.filter (keepsInput present) = n.inputs := by
  refine List.filter_eq_self.mpr fun i hi => ?_
  have hfinding := List.filterMap_eq_nil_iff.mp (List.append_eq_nil_iff.mp hnone).1 i hi
  unfold keepsInput
  cases hreference : i.reference? with
  | none => rfl
  | some ref =>
    rw [hreference, finding?_some] at hfinding
    by_contra hdangling
    rw [if_pos (by simpa using hdangling)] at hfinding
    cases hfinding

namespace Conversion

open Assembly Dangling

variable {g : Registry} {d : Document} {l : Lifted} {t : Nested Record} {f : Nested Node}
  {resolver : Resolver}

/-- A clean report has no finding of the run and none about a reference. -/
theorem findings_of_isClean {p : Platform} (hclean : (assemble p l).2.isClean = true) :
    l.harvest.report.diagnostics = [] ∧
      ∀ e ∈ l.levels, ∀ n ∈ e.2, nodeFindings (presentIds l.levels) n = [] := by
  obtain ⟨hrun, hrest⟩ := List.append_eq_nil_iff.mp (List.isEmpty_iff.mp hclean)
  obtain ⟨hreferences, -⟩ := List.append_eq_nil_iff.mp hrest
  obtain ⟨-, hdangling⟩ := List.append_eq_nil_iff.mp hreferences
  exact ⟨hrun, fun e he n hn => List.flatMap_eq_nil_iff.mp
    (List.flatMap_eq_nil_iff.mp hdangling e he) n hn⟩

theorem avoids_input (removed : List String) (i : RecordInput) :
    ((Lift.context g resolver []).input i).avoids removed =
      !i.pointer?.any fun q => removed.contains (resolver.nodeId q.node) := by
  rw [Input.avoids, DecodeContext.reference?_input]
  cases i.pointer? <;> rfl

theorem keepsInput_input (present : List String) (i : RecordInput) :
    keepsInput present ((Lift.context g resolver []).input i) =
      !i.pointer?.any fun q => !present.contains (resolver.nodeId q.node) := by
  rw [keepsInput, DecodeContext.reference?_input]
  cases i.pointer? <;> rfl

/-- Where only loop-start records are removed, and nothing that an end node keeps is absent,
the node loses the inputs from loop-start records. -/
theorem names_endInputs {removed present : List String} {r : Record} {own : Node}
    (hremoved : ∀ id ∈ removed, d.namesStart g id = true)
    (hpresent : ∀ id ∈ present, d.namesStart g id = false)
    (hinputs : own.inputs = (r.inputs.map (Lift.context g resolver []).input).filter
      (Input.avoids removed))
    (hkept : own.inputs.filter (keepsInput present) = own.inputs) :
    own.inputs.map Input.name =
      (r.inputs.filter fun i => !d.losesInput g resolver i).map RecordInput.name := by
  have hrule : ∀ i ∈ r.inputs, (Input.avoids removed ∘ (Lift.context g resolver []).input) i =
      !d.losesInput g resolver i := by
    intro i hi
    rw [Function.comp_apply, avoids_input, Document.losesInput]
    cases hpointer : i.pointer? with
    | none => rfl
    | some q =>
      rw [Option.any_some, Option.any_some]
      congr 1
      rw [Bool.eq_iff_iff, List.contains_iff_mem]
      refine ⟨hremoved _, fun hstart => ?_⟩
      -- A loop-start record that was not removed would still be the producer of a kept input.
      by_contra hstays
      have hmem : (Lift.context g resolver []).input i ∈ own.inputs := by
        rw [hinputs, List.mem_filter, avoids_input, hpointer]
        exact ⟨List.mem_map_of_mem hi, by simpa using hstays⟩
      have hkeeps := List.filter_eq_self.mp hkept _ hmem
      rw [keepsInput_input, hpointer] at hkeeps
      have hthere : resolver.nodeId q.node ∈ present := by simpa using hkeeps
      cases hstart.symm.trans (hpresent _ hthere)
  have hnames : Input.name ∘ (Lift.context g resolver []).input = RecordInput.name :=
    funext (Lift.context g resolver []).name_input
  rw [hinputs, List.filter_map, List.map_map, hnames, List.filter_congr hrule]

/-- A node of the graph is no loop-start record. -/
theorem namesStart_of_mem_presentIds (hg : g.UsesBuiltIns) (hids : d.DistinctIds)
    (ht : d.Unrolls g d.records t) (hrebuilt : Rebuilt g d l t f)
    (hdecodes : Lift.Decodes g resolver .root t f) {id : String}
    (hid : id ∈ presentIds l.levels) : d.namesStart g id = false := by
  have hwalk := (hrebuilt.ids_walk_perm (hdecodes.isFresh hg)).mem_iff.mp hid
  obtain ⟨place, r, hlies, hsome, rfl⟩ := (hrebuilt.mem_ids_walk_iff hg hdecodes).mp hwalk
  refine Bool.eq_false_iff.mpr fun hstart => ?_
  obtain ⟨start, hin, hpseudo, hsame⟩ := Document.namesStart_iff.mp hstart
  obtain rfl := List.inj_on_of_nodup_map hids hin (ht.mem_allRecords hlies) hsame
  rw [Lift.survivor?_eq_none_of_isPseudoTag hpseudo] at hsome
  cases hsome

/-- Where no record is lost, an end node that keeps all it was given has the inputs of its
record but for those from loop-start records. -/
theorem exists_names_of_end (hg : g.UsesBuiltIns) (hids : d.DistinctIds)
    (hlifted : Lifted.ofDocument? g d = some l)
    (hresolver : Survey.resolver? g d = some resolver) (ht : d.Unrolls g d.records t)
    (hrebuilt : Rebuilt g d l t f) (hdecodes : Lift.Decodes g resolver .root t f)
    (hnone : d.lostRecords g t = []) {e : Level × List Node} (he : e ∈ l.levels) {own : Node}
    (hown : own ∈ e.2) (hkind : own.kind = .finish)
    (hkept : own.inputs.filter (keepsInput (presentIds l.levels)) = own.inputs) :
    ∃ r ∈ d.allRecords, r.id = own.id ∧ own.inputs.map Input.name =
      (r.inputs.filter fun i => !d.losesInput g resolver i).map RecordInput.name := by
  obtain ⟨early, hremoved, hfills⟩ := Lifted.ofDocument?_ends hg hlifted hresolver ht
  obtain ⟨before, level, r, after, hsplit, hdecode⟩ := hfills.exists_decode hg he hown hkind
  have hwaits : (level, r) ∈ Document.ends g t := by
    rw [hsplit]
    exact List.mem_append_right _ List.mem_cons_self
  obtain ⟨list, hlist, hr⟩ := ht.exists_mem_lists (Document.mem_members_of_mem_ends hwaits)
  have hstarts : ∀ id ∈ early ++ Lift.failed g before, d.namesStart g id = true := by
    intro id hid
    refine Document.namesStart_iff.mpr
      (Lifted.exists_start_of_mem_removed hg hlifted ht hnone ?_)
    rw [hremoved, hsplit, Lift.failed_append, ← List.append_assoc]
    exact List.mem_append_left _ hid
  refine ⟨r, List.mem_flatMap.mpr ⟨list, hlist, hr⟩,
    (Registry.face?_of_decode hg hdecode).2.symm, ?_⟩
  exact names_endInputs hstarts
    (fun id => namesStart_of_mem_presentIds hg hids ht hrebuilt hdecodes)
    (Registry.inputs_of_decode hg hkind hdecode) hkept

/-- Any other node that is decoded has the inputs of its record. -/
theorem names_of_becomes (hg : g.UsesBuiltIns) {place : Level} {r : Record} {own : Node}
    (hbecomes : Lift.Becomes g resolver place r own) (hface : (g.face? r).isSome = true)
    (hkind : own.kind ≠ .finish) : own.inputs.map Input.name = r.inputs.map RecordInput.name := by
  obtain ⟨removed, hdecode⟩ := hbecomes.exists_decode hg hface
  have hmeans : ∀ q type, resolver.Resolves q ((Lift.context g resolver removed).capture q type) :=
    fun q type => ⟨type, rfl⟩
  obtain ⟨is, hcaptures, hsame⟩ := (Registry.captures_decode hg hmeans hdecode).inputs
  rw [hsame, if_neg hkind]
  exact Input.names_of_forall₂ hcaptures

/-- The nodes of a graph have the inputs that their records declare, in order, but for the end
nodes: these lose the inputs whose producers are loop-start records. Such a producer is named
by the pointer itself, and stands for no loop. -/
structure LosesStarts (g : Registry) (d : Document) (resolver : Resolver) (c : Conversion) :
    Prop where
  inputs : ∀ n ∈ c.graph.walk, ∃ r ∈ d.allRecords, r.id = n.id ∧
    (n.kind ≠ .finish → n.inputs.map Input.name = r.inputs.map RecordInput.name) ∧
    (n.kind = .finish → n.inputs.map Input.name =
      (r.inputs.filter fun i => !d.losesInput g resolver i).map RecordInput.name)
  starts : ∀ id, d.namesStart g (resolver.nodeId id) = true ↔
    d.namesStart g id = true ∧ ∀ node, ¬ d.Calls g (.aliased id node)

/-- If a conversion of an export has a clean report, no inputs are lost but those of end nodes
from loop-start records. -/
theorem ofJson_lostInputs {p : Platform} {exported : Json} {c : Conversion}
    (hparse : p.parseDocument exported = .ok d) (hids : d.DistinctIds)
    (hc : ofJson (.withDefaults p) exported = .ok c) (hclean : c.report.isClean = true) :
    ∃ resolver, Survey.resolver? (.withDefaults p) d = some resolver ∧
      c.LosesStarts (.withDefaults p) d resolver := by
  have hg := (Registry.Derived.defaults (p := p)).usesBuiltIns
  obtain ⟨resolver, t, f, l, hresolver, ht, hdecodes, hlifted, hrebuilt, rfl⟩ :=
    exists_rebuilt_of_ok hg hids (ofDocument_of_ofJson hparse hc)
  refine ⟨resolver, hresolver, fun n hn => ?_, Survey.namesStart_nodeId_iff hids hresolver⟩
  obtain ⟨hrun, hreferences⟩ := findings_of_isClean hclean
  have hnone := Lifted.lostRecords_eq_nil hg hlifted ht hrun
  obtain ⟨place, r, hlies, own, hown, hbecomes, hfinishes⟩ :=
    hrebuilt.exists_finishes hg hdecodes hn
  obtain ⟨e, he, hin⟩ := hrebuilt.exists_mem_levels hown
  have hkept := filter_inputs_of_nodeFindings_eq_nil (hreferences e he own hin)
  have hinputs : n.inputs = own.inputs := hfinishes.inputs_eq.trans hkept
  rw [hinputs, hfinishes.id_eq, hfinishes.kind_eq]
  by_cases hkind : own.kind = .finish
  · obtain ⟨last, hlast, hid, hnames⟩ := exists_names_of_end hg hids hlifted hresolver ht hrebuilt
      hdecodes hnone he hin hkind hkept
    exact ⟨last, hlast, hid, fun h => absurd hkind h, fun _ => hnames⟩
  · have hmember := Nested.mem_members_of_mem_located (Nested.mem_located_iff.mpr hlies)
    have hface := Lifted.isSome_face?_of_mem_members hnone hmember hbecomes.1
    exact ⟨r, ht.mem_allRecords hlies, (hbecomes.id_eq hg).symm,
      fun _ => names_of_becomes hg hbecomes hface hkind, fun h => absurd h hkind⟩

/-- A loop-start node outside of any loop, and an end node that reads from it. -/
def strayStart : Json :=
  .obj [("nodes", .arr
    [.obj [("id", .str "first"), ("data", .obj [("type", .str "iteration-start")])],
     .obj [("id", .str "done"), ("data", .obj [("type", .str "end"),
      ("outputs", .arr [.obj [("variable", .str "v"),
        ("value_selector", .arr [.str "first", .str "item"])]])])]])]

theorem ofJson_lostInputs_strayStart :
    ∃ d c, Platform.dify.parseDocument strayStart = .ok d ∧ d.DistinctIds ∧
      ofJson (.withDefaults .dify) strayStart = .ok c ∧ c.report.isClean = true ∧
        ∃ resolver, Survey.resolver? (.withDefaults .dify) d = some resolver ∧
          c.LosesStarts (.withDefaults .dify) d resolver := by
  obtain ⟨d, hparse, hids⟩ := exists_ok_of_any (x := Platform.dify.parseDocument strayStart)
    (q := fun d => decide d.DistinctIds) (by decide +kernel)
  obtain ⟨c, hc, hclean⟩ := exists_ok_of_any (x := ofJson (.withDefaults .dify) strayStart)
    (q := fun c => c.report.isClean) (by decide +kernel)
  have hids := of_decide_eq_true hids
  exact ⟨d, c, hparse, hids, hc, hclean, ofJson_lostInputs hparse hids hc hclean⟩

/-- The report is clean, and the end node has lost its only input. -/
theorem strayStart_loses :
    ∃ d c, Platform.dify.parseDocument strayStart = .ok d ∧ d.DistinctIds ∧
      ofJson (.withDefaults .dify) strayStart = .ok c ∧ c.report.isClean = true ∧
        (∃ r ∈ d.allRecords, r.id = "done" ∧ r.inputs.map RecordInput.name = ["v"]) ∧
          ∃ n ∈ c.graph.walk, n.id = "done" ∧ n.inputs.map Input.name = [] := by
  obtain ⟨d, hparse, hd⟩ := exists_ok_of_any (x := Platform.dify.parseDocument strayStart)
    (q := fun d => decide (d.DistinctIds ∧ ∃ r ∈ d.allRecords, r.id = "done" ∧
      r.inputs.map RecordInput.name = ["v"])) (by decide +kernel)
  obtain ⟨c, hc, hresult⟩ := exists_ok_of_any (x := ofJson (.withDefaults .dify) strayStart)
    (q := fun c => decide (c.report.isClean = true ∧
      ∃ n ∈ c.graph.walk, n.id = "done" ∧ n.inputs.map Input.name = [])) (by decide +kernel)
  obtain ⟨hids, hreader⟩ := of_decide_eq_true hd
  obtain ⟨hclean, hlost⟩ := of_decide_eq_true hresult
  exact ⟨d, c, hparse, hids, hc, hclean, hreader, hlost⟩

end Conversion

end WorkflowGraph
