/-
# Outputs that are captured under another name

An iteration node has one output, and a pointer to any declared output of a loop is
captured as a pointer to that one. The resolver keeps the new names by the id of the loop
and knows nothing of levels: a loop in some body renames the outputs of every other record
with its id, although each level has its own ids. Nothing else is renamed.
-/

import WorkflowGraph.Proofs.CapturedPointers
import WorkflowGraph.Proofs.CarriedPointers

namespace WorkflowGraph

namespace Document

/-- What a pointer is captured as where no id stands for another node: the node keeps its
id, and the output its name unless a loop of that id, on whatever level, declares it. -/
structure Renames (g : Registry) (d : Document) (q : Pointer) (ref : Reference) : Prop where
  node : ref.node = q.node
  declared : d.Declares g q.node q.output → ref.output = iterationOutput
  output : ¬ d.Declares g q.node q.output → ref.output = q.output

/-- A node of the root names what its record points to. If the record was decoded, no input
from a record of the root is left out, but for those of an end node whose producers were
removed before it was decoded. -/
structure Names (g : Registry) (d : Document) (t : Nested Record) (r : Record) (n : Node) :
    Prop where
  id : n.id = r.id
  carries : n.Carries (d.Renames g) r
  keeps : (g.face? r).isSome = true → ∃ removed,
    (n.kind = .finish → d.RemovedBefore g t .root r removed) ∧
      ∀ i ∈ r.inputs, ∀ q, i.pointer? = some q → q.node ∈ d.records.map Record.id →
        ((∃ j ∈ n.inputs, Input.Captures (d.Renames g) i j) ↔
          (n.kind = .finish → q.node ∉ removed))

variable {g : Registry} {d : Document}

/-- The lists that are surveyed are lists of the document, on their levels. -/
theorem Surveys.exists_mem_lists {level : Level} {rs : List Record}
    (hsurveys : d.Surveys g level rs) : ∃ body, (level, body) ∈ d.lists ∧ body.records = rs := by
  induction hsurveys with
  | root => exact ⟨_, List.mem_cons_self, rfl⟩
  | body _ hr _ hbody ih =>
      obtain ⟨own, hown, rfl⟩ := ih
      exact ⟨_, mem_lists_of_body? hown hr hbody, rfl⟩

theorem ReachesLoop.mem_allRecords {r : Record} (hreached : d.ReachesLoop g r) :
    r ∈ d.allRecords := by
  obtain ⟨level, rs, hsurveys, hr, -⟩ := hreached
  obtain ⟨body, hbody, rfl⟩ := hsurveys.exists_mem_lists
  exact List.mem_flatMap.mpr ⟨_, hbody, hr⟩

theorem ReachesLoop.kind?_eq {r : Record} (hreached : d.ReachesLoop g r) :
    g.kind? r.tag = some .iteration := by
  obtain ⟨level, rs, -, -, hiterates⟩ := hreached
  simp only [Registry.iterates, Bool.and_eq_true, beq_iff_eq] at hiterates
  exact hiterates.1

/-- A loop-start node in the body of a loop that is reached is a record of the document. -/
theorem ReachesLoop.exists_start {r : Record} (hreached : d.ReachesLoop g r) {id : String}
    (hmarks : d.marksStart g r id = true) :
    ∃ x ∈ d.allRecords, g.platform.isPseudoTag x.tag = true ∧ x.id = id := by
  obtain ⟨level, rs, hsurveys, hr, hiterates⟩ := hreached
  obtain ⟨body, hbody, x, hx, hpseudo, hid⟩ := marksStart_iff.mp hmarks
  obtain ⟨own, hown, hrecords⟩ := (hsurveys.body hr hiterates hbody).exists_mem_lists
  exact ⟨x, List.mem_flatMap.mpr ⟨_, hown, hrecords ▸ hx⟩, hpseudo, hid⟩

/-- Without loop-start nodes and without names for them, no id stands for another node. -/
theorem not_calls_aliased (hplain : ∀ r ∈ d.allRecords, g.platform.isPseudoTag r.tag = false)
    (hstart : ∀ r ∈ d.allRecords, r.startNode? = none) (id node : String) :
    ¬ d.Calls g (.aliased id node) := by
  intro hcalls
  cases hcalls with
  | start hreached hmarks =>
      obtain ⟨x, hx, hpseudo, -⟩ := hreached.exists_start hmarks
      cases (hplain x hx).symm.trans hpseudo
  | named hreached hnamed _ => cases (hstart _ hreached.mem_allRecords).symm.trans hnamed

end Document

namespace Survey

open Document

variable {g : Registry} {d : Document} {resolver : Resolver}

theorem renames_of_resolves (hresolver : resolver? g d = some resolver)
    (hnone : ∀ id node, ¬ d.Calls g (.aliased id node)) {q : Pointer} {ref : Reference}
    (hresolves : resolver.Resolves q ref) : d.Renames g q ref := by
  obtain ⟨type, rfl⟩ := hresolves
  have hnode : resolver.nodeId q.node = q.node :=
    ((nodeId_cases hresolver q.node).resolve_left (hnone _ _)).2
  have hname := outputName_cases hresolver q.node q.output
  rw [← hnode] at hname
  exact ⟨hnode, fun h => hname.1 (hnode.symm ▸ h), fun h => hname.2 (hnode.symm ▸ h)⟩

end Survey

namespace Document

/-- A root with a record `p` and its readers, and a loop whose body holds a loop `p`. -/
def sharedName : Document :=
  ⟨[{ Record.bare "p" "5" with outputs := [⟨"x", none⟩, ⟨"y", none⟩] },
    { Record.bare "reader" "5" with
      inputs := [⟨"first", none, .pointer ⟨"p", "x"⟩⟩, ⟨"second", none, .pointer ⟨"p", "y"⟩⟩] },
    { Record.bare "a" "21" with
      blocks := some ⟨[{ Record.bare "p" "21" with outputs := [⟨"x", none⟩] }], []⟩ }],
   [], ∅⟩

end Document

namespace Conversion

open Assembly Dangling Document

variable {g : Registry} {d : Document}

/-- Every record of the root survives, as its node or as a placeholder. -/
theorem survivors_root_eq_self
    (hplain : ∀ r ∈ d.allRecords, g.platform.isPseudoTag r.tag = false) :
    g.survivors .root d.records = d.records := by
  refine List.filter_eq_self.mpr fun r hr => ?_
  have hrecord := hplain r (List.mem_flatMap.mpr ⟨_, List.mem_cons_self, hr⟩)
  unfold Registry.survivor?
  rw [if_neg (by simp [hrecord])]
  cases g.face? r <;> rfl

theorem ids_subset_presentIds (hg : g.UsesBuiltIns)
    (hplain : ∀ r ∈ d.allRecords, g.platform.isPseudoTag r.tag = false) {resolver : Resolver}
    {t : Nested Record} {f : Nested Node} {l : Lifted} (ht : d.Unrolls g d.records t)
    (hdecodes : Lift.Decodes g resolver .root t f) (hmirrors : l.Mirrors g d t f) :
    d.records.map Record.id ⊆ presentIds l.levels := by
  have hroots := hdecodes.ids_eq hg
  rw [ht.roots_eq, survivors_root_eq_self hplain] at hroots
  rw [presentIds, hmirrors.levels, List.flatMap_map, ← hroots]
  intro id hid
  exact List.mem_flatMap.mpr
    ⟨(.root, f), List.mem_append_right _ (List.mem_singleton_self _), hid⟩

/-- An input from a producer that is in the graph is kept, unless an end node leaves it out. -/
theorem exists_captures_iff {removed : List String} {r : Record} {own n : Node}
    (hown : own.Captures (d.Renames g) removed r) {part : EdgePartition}
    {present : List String} (hfinishes : own.Finishes part present n) {i : RecordInput}
    (hi : i ∈ r.inputs) {q : Pointer} (hq : i.pointer? = some q) (hpresent : q.node ∈ present) :
    (∃ j ∈ n.inputs, Input.Captures (d.Renames g) i j) ↔
      (n.kind = .finish → q.node ∉ removed) := by
  have hproducer : ∀ j, Input.Captures (d.Renames g) i j →
      ∃ ref, j.reference? = some ref ∧ ref.node = q.node := by
    rintro j ⟨-, hrel⟩
    rw [hq] at hrel
    generalize j.reference? = slot at hrel ⊢
    cases hrel with
    | some hrenames => exact ⟨_, rfl, hrenames.node⟩
  obtain ⟨is, hcaptures, hinputs⟩ := hown.inputs
  rw [hfinishes.kind_eq, hfinishes.inputs_eq, hinputs]
  constructor
  · rintro ⟨j, hj, hinput⟩ hkind
    rw [if_pos hkind] at hj
    have havoids := (List.mem_filter.mp (List.mem_of_mem_filter hj)).2
    obtain ⟨ref, href, hnode⟩ := hproducer j hinput
    simpa [Input.avoids, href, hnode] using havoids
  · intro hkept
    obtain ⟨j, hj, hinput⟩ := exists_of_forall₂_of_mem hcaptures hi
    obtain ⟨ref, href, hnode⟩ := hproducer j hinput
    refine ⟨j, List.mem_filter.mpr ⟨?_, by simp [keepsInput, isDangling, href, hnode, hpresent]⟩,
      hinput⟩
    split
    next hkind =>
      refine List.mem_filter.mpr ⟨hj, ?_⟩
      simpa [Input.avoids, href, hnode] using hkept hkind
    next => exact hj

/-- The references of the root of a graph are captured from the pointers of the root with
the output that they name, unless a loop with the id of the producer declares it on some
level of the document: then they are captured with the output of iteration nodes, also when
the producer is no loop and lies on another level. The ids of a list need not be distinct. -/
theorem ofDocument_rootNames {p : Platform} (hg : Registry.Derived p g)
    (hplain : ∀ r ∈ d.allRecords, p.isPseudoTag r.tag = false)
    (hstart : ∀ r ∈ d.allRecords, r.startNode? = none) {c : Conversion}
    (hc : ofDocument g d = .ok c) :
    ∃ t, d.Unrolls g d.records t ∧ List.Forall₂ (d.Names g t) d.records c.graph.nodes := by
  have hbuiltIns := hg.usesBuiltIns
  obtain rfl := hg.platform_eq
  obtain ⟨-, l, hlifted, -, rfl⟩ := ofDocument_eq_ok_iff.mp hc
  obtain ⟨resolver, t, f, hresolver, ht, hdecodes, hmirrors⟩ :=
    Lifted.ofDocument?_decodes hbuiltIns hlifted
  obtain ⟨early, hremoved, hfills⟩ := Lifted.ofDocument?_ends hbuiltIns hlifted hresolver ht
  have hrenames : ∀ q ref, resolver.Resolves q ref → d.Renames g q ref := fun q ref =>
    Survey.renames_of_resolves hresolver (not_calls_aliased hplain hstart)
  have hall := survivors_root_eq_self hplain
  have hpresent := ids_subset_presentIds hbuiltIns hplain ht hdecodes hmirrors
  have hroot := forall₂_finishes_roots hmirrors (hfills.forall₂_roots hmirrors)
  rw [ht.roots_eq, hall] at hroot
  refine ⟨t, ht, hroot.imp fun r n hmade => ?_⟩
  obtain ⟨own, hown, hfinishes⟩ := hmade
  have hbecomes := hown.becomes
  refine ⟨hfinishes.id_eq.trans (hbecomes.id_eq hbuiltIns),
    (hfinishes.carries (hbecomes.carries hbuiltIns)).mono hrenames, fun hface => ?_⟩
  obtain ⟨removed, hbefore, hdecode⟩ :=
    hown.exists_decode hbuiltIns hlifted ht hremoved hface
  have hmeans : ∀ q type, d.Renames g q ((Lift.context g resolver removed).capture q type) :=
    fun q type => hrenames q _ ⟨type, rfl⟩
  have hcaptures := Registry.captures_decode hbuiltIns hmeans hdecode
  exact ⟨removed, hfinishes.kind_eq ▸ hbefore, fun i hi q hq hproducer =>
    exists_captures_iff hcaptures hfinishes hi hq (hpresent hproducer)⟩

theorem ofDocument_rootNames_sharedName :
    Registry.Derived .coze (.withDefaults .coze) ∧
      (∀ r ∈ sharedName.allRecords, Platform.coze.isPseudoTag r.tag = false) ∧
        (∀ r ∈ sharedName.allRecords, r.startNode? = none) ∧
          ∃ c, ofDocument (.withDefaults .coze) sharedName = .ok c ∧
            ∃ t, sharedName.Unrolls (.withDefaults .coze) sharedName.records t ∧
              List.Forall₂ (sharedName.Names (.withDefaults .coze) t)
                sharedName.records c.graph.nodes := by
  have hplain : ∀ r ∈ sharedName.allRecords, Platform.coze.isPseudoTag r.tag = false := by
    decide +kernel
  have hstart : ∀ r ∈ sharedName.allRecords, r.startNode? = none := by decide +kernel
  obtain ⟨c, hc⟩ := exists_of_isOk (g := .withDefaults .coze) (d := sharedName)
    (by decide +kernel)
  exact ⟨.defaults, hplain, hstart, c, hc, ofDocument_rootNames .defaults hplain hstart hc⟩

/-- A pointer to the output `x` of a code node of the root is captured as one to the output
of iteration nodes, because a loop in the body of another loop has the id of the node. -/
theorem sharedName_renamed :
    sharedName.check = .ok () ∧ sharedName.SectionsAcyclic (.withDefaults .coze) ∧
      (∀ entry ∈ sharedName.lists, (entry.2.records.map Record.id).Nodup) ∧
        (∀ r ∈ sharedName.allRecords, Platform.coze.isPseudoTag r.tag = false) ∧
          (∀ r ∈ sharedName.allRecords, r.startNode? = none) ∧
            (∃ r ∈ sharedName.records, r.id = "p" ∧
              (Registry.withDefaults .coze).kind? r.tag ≠ some .iteration) ∧
              (∃ r ∈ sharedName.records, r.id = "reader" ∧
                r.inputs.map RecordInput.pointer? = [some ⟨"p", "x"⟩, some ⟨"p", "y"⟩]) ∧
                ∃ c, ofDocument (.withDefaults .coze) sharedName = .ok c ∧
                  ∃ n ∈ c.graph.nodes, n.id = "reader" ∧ n.inputs.map Input.reference? =
                    [some ⟨"p", "output", .any⟩, some ⟨"p", "y", .any⟩] := by
  obtain ⟨c, hc, hgraph⟩ := exists_ok_of_any (x := ofDocument (.withDefaults .coze) sharedName)
    (q := fun c => decide (∃ n ∈ c.graph.nodes, n.id = "reader" ∧ n.inputs.map Input.reference? =
      [some ⟨"p", "output", .any⟩, some ⟨"p", "y", .any⟩])) (by decide +kernel)
  exact ⟨by decide +kernel, sectionsAcyclic_of_eq_nil rfl, by decide +kernel, by decide +kernel,
    by decide +kernel, ⟨_, List.mem_cons_self, rfl, by decide +kernel⟩,
    ⟨_, List.mem_cons_of_mem _ List.mem_cons_self, rfl, rfl⟩,
    c, hc, of_decide_eq_true hgraph⟩

end Conversion

end WorkflowGraph
