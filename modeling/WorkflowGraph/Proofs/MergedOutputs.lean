/-
# Outputs that are captured as one

A loop may declare several outputs, and its iteration node has one. A pointer to any of them
is captured as a reference to that one, and nothing is reported. Two outputs of a record that
is no loop are never captured as one, whatever ids stand for other nodes.
-/

import WorkflowGraph.Proofs.ParsedRecords
import WorkflowGraph.Proofs.RenamedOutputs

namespace WorkflowGraph

/-- What a reference points to, apart from its type. -/
def Reference.target (ref : Reference) : Pointer :=
  ⟨ref.node, ref.output⟩

/-- What a pointer is captured as. -/
def Resolver.target (resolver : Resolver) (q : Pointer) : Pointer :=
  ⟨resolver.nodeId q.node, resolver.outputName (resolver.nodeId q.node) q.output⟩

namespace Document

variable {g : Registry} {d : Document} {x : Record} {o : RecordOutput}

/-- With distinct ids, an output is declared by a loop of its record's id exactly if the record
is a loop that is reached. -/
theorem declares_iff_reachesLoop (hids : d.DistinctIds) (hx : x ∈ d.allRecords)
    (ho : o ∈ x.outputs) : d.Declares g x.id o.name ↔ d.ReachesLoop g x := by
  refine ⟨?_, fun hreached => ⟨x, hreached, rfl, o, ho, rfl⟩⟩
  rintro ⟨r, hreached, hid, -⟩
  obtain rfl := List.inj_on_of_nodup_map hids hreached.mem_allRecords hx hid
  exact hreached

end Document

namespace Survey

open Document

variable {p : Platform} {exported : Json} {d : Document} {resolver : Resolver} {x : Record}
  {a b : RecordOutput}

/-- On platforms without loop-start nodes, no id stands for another node. -/
theorem nodeId_eq_self (hparse : p.parseDocument exported = .ok d)
    (hresolver : resolver? (.withDefaults p) d = some resolver) (hpseudo : p.pseudoTag? = none)
    (id : String) : resolver.nodeId id = id := by
  have hplain : ∀ r ∈ d.allRecords,
      (Registry.withDefaults p).platform.isPseudoTag r.tag = false := by
    intro r _
    rw [Registry.Derived.defaults.platform_eq, Platform.isPseudoTag, hpseudo]
    rfl
  have hstart : ∀ r ∈ d.allRecords, r.startNode? = none := fun r hr =>
    Platform.startNode?_of_parseDocument hparse (holds_of_mem_allRecords hr) hpseudo
  exact ((nodeId_cases hresolver id).resolve_left (not_calls_aliased hplain hstart _ _)).2

/-- On platforms with loop-start nodes, every output is captured under its own name. -/
theorem outputName_eq_self (hparse : p.parseDocument exported = .ok d)
    (hresolver : resolver? (.withDefaults p) d = some resolver)
    (hpseudo : p.pseudoTag?.isSome = true) (node name : String) :
    resolver.outputName node name = name := by
  obtain ⟨hdeclared, hother⟩ := outputName_cases hresolver node name
  by_cases hdeclares : d.Declares (.withDefaults p) node name
  · rw [hdeclared hdeclares]
    obtain ⟨r, hreached, -, o, ho, rfl⟩ := hdeclares
    exact (Platform.outputs_of_parseDocument hparse
      (holds_of_mem_allRecords hreached.mem_allRecords) hpseudo hreached.kind?_eq o ho).symm
  · exact hother hdeclares

/-- Two outputs of a record are captured as one exactly if the record is a loop that is
reached. -/
theorem target_eq_iff (hparse : p.parseDocument exported = .ok d) (hids : d.DistinctIds)
    (hresolver : resolver? (.withDefaults p) d = some resolver) (hx : x ∈ d.allRecords)
    (ha : a ∈ x.outputs) (hb : b ∈ x.outputs) (hdiffer : a.name ≠ b.name) :
    resolver.target ⟨x.id, a.name⟩ = resolver.target ⟨x.id, b.name⟩ ↔
      d.ReachesLoop (.withDefaults p) x := by
  simp only [Resolver.target, Pointer.mk.injEq, true_and]
  cases hpseudo : p.pseudoTag? with
  | none =>
      rw [nodeId_eq_self hparse hresolver hpseudo]
      obtain ⟨hdeclaredA, hotherA⟩ := outputName_cases hresolver x.id a.name
      obtain ⟨hdeclaredB, hotherB⟩ := outputName_cases hresolver x.id b.name
      rw [declares_iff_reachesLoop hids hx ha] at hdeclaredA hotherA
      rw [declares_iff_reachesLoop hids hx hb] at hdeclaredB hotherB
      refine ⟨fun hsame => ?_, fun hreached => ?_⟩
      · by_contra hleft
        exact hdiffer (by rw [← hotherA hleft, ← hotherB hleft, hsame])
      · rw [hdeclaredA hreached, hdeclaredB hreached]
  | some tag =>
      have hsome : p.pseudoTag?.isSome = true := by rw [hpseudo]; rfl
      rw [outputName_eq_self hparse hresolver hsome, outputName_eq_self hparse hresolver hsome]
      refine ⟨fun hsame => absurd hsame hdiffer, fun hreached => ?_⟩
      have hnames := Platform.outputs_of_parseDocument hparse (holds_of_mem_allRecords hx) hsome
        hreached.kind?_eq
      exact (hnames a ha).trans (hnames b hb).symm

end Survey

namespace Conversion

open Document

variable {p : Platform} {exported : Json} {d : Document} {c : Conversion}

/-- What a pointer is captured as does not depend on the node that holds it. Pointers to two
outputs that a record declares are captured as different references, unless the record is a
loop that is reached: then they are captured as the same. -/
structure MergesOutputs (g : Registry) (d : Document) (c : Conversion)
    (target : Pointer → Pointer) : Prop where
  carries : ∀ n ∈ c.graph.walk, ∃ r ∈ d.allRecords, r.id = n.id ∧
    n.Carries (fun q ref => ref.target = target q) r
  merged : ∀ x ∈ d.allRecords, ∀ a ∈ x.outputs, ∀ b ∈ x.outputs, a.name ≠ b.name →
    (target ⟨x.id, a.name⟩ = target ⟨x.id, b.name⟩ ↔ d.ReachesLoop g x)

/-- The outputs of a record are captured as one exactly if it is a loop that is reached,
whether the report is clean or not. -/
theorem ofJson_mergedOutputs (hparse : p.parseDocument exported = .ok d) (hids : d.DistinctIds)
    (hc : ofJson (.withDefaults p) exported = .ok c) :
    ∃ target, MergesOutputs (.withDefaults p) d c target := by
  have hg := (Registry.Derived.defaults (p := p)).usesBuiltIns
  obtain ⟨resolver, t, f, l, hresolver, ht, hdecodes, -, hrebuilt, rfl⟩ :=
    exists_rebuilt_of_ok hg hids (ofDocument_of_ofJson hparse hc)
  refine ⟨resolver.target, fun n hn => ?_, fun x hx a ha b hb hdiffer =>
    Survey.target_eq_iff hparse hids hresolver hx ha hb hdiffer⟩
  obtain ⟨place, r, hlies, own, -, hbecomes, hfinishes⟩ := hrebuilt.exists_finishes hg hdecodes hn
  refine ⟨r, ht.mem_allRecords hlies, by rw [hfinishes.id_eq, hbecomes.id_eq hg], ?_⟩
  refine (hfinishes.carries (hbecomes.carries hg)).mono ?_
  rintro q ref ⟨type, rfl⟩
  rfl

/-- A loop with the outputs `a` and `b`, and an end node that reads both. -/
def twoOutputs : Json :=
  let output (name : String) : Json := .obj [("name", .str name), ("type", .str "list")]
  let reads (name output : String) : Json :=
    .obj [("name", .str name), ("input", .obj [("value", .obj [("type", .str "ref"),
      ("content", .obj [("blockID", .str "loop"), ("name", .str output)])])])]
  .obj [("nodes", .arr
    [.obj [("id", .str "loop"), ("type", .str "21"),
      ("data", .obj [("outputs", .arr [output "a", output "b"])])],
     .obj [("id", .str "done"), ("type", .str "2"),
      ("data", .obj [("inputs", .obj [("inputParameters",
        .arr [reads "u" "a", reads "v" "b"])])])]])]

theorem ofJson_mergedOutputs_twoOutputs :
    ∃ d c, Platform.coze.parseDocument twoOutputs = .ok d ∧ d.DistinctIds ∧
      ofJson (.withDefaults .coze) twoOutputs = .ok c ∧
        ∃ target, MergesOutputs (.withDefaults .coze) d c target := by
  obtain ⟨d, hparse, hids⟩ := exists_ok_of_any (x := Platform.coze.parseDocument twoOutputs)
    (q := fun d => decide d.DistinctIds) (by decide +kernel)
  obtain ⟨c, hc, -⟩ := exists_ok_of_any (x := ofJson (.withDefaults .coze) twoOutputs)
    (q := fun _ => true) (by decide +kernel)
  have hids := of_decide_eq_true hids
  exact ⟨d, c, hparse, hids, hc, ofJson_mergedOutputs hparse hids hc⟩

/-- The two inputs of the end node name two outputs of the loop, are captured as references to
one output, and the report is clean. -/
theorem twoOutputs_merged :
    ∃ d c, Platform.coze.parseDocument twoOutputs = .ok d ∧ d.DistinctIds ∧
      ofJson (.withDefaults .coze) twoOutputs = .ok c ∧ c.report.isClean = true ∧
        (∃ r ∈ d.allRecords, r.id = "loop" ∧ r.outputs.map RecordOutput.name = ["a", "b"]) ∧
          (∃ r ∈ d.allRecords, r.id = "done" ∧
            r.inputs.map RecordInput.pointer? = [some ⟨"loop", "a"⟩, some ⟨"loop", "b"⟩]) ∧
            ∃ n ∈ c.graph.walk, n.id = "done" ∧ n.inputs.map Input.reference? =
              [some ⟨"loop", "output", .any⟩, some ⟨"loop", "output", .any⟩] := by
  obtain ⟨d, hparse, hd⟩ := exists_ok_of_any (x := Platform.coze.parseDocument twoOutputs)
    (q := fun d => decide (d.DistinctIds ∧
      (∃ r ∈ d.allRecords, r.id = "loop" ∧ r.outputs.map RecordOutput.name = ["a", "b"]) ∧
        ∃ r ∈ d.allRecords, r.id = "done" ∧ r.inputs.map RecordInput.pointer? =
          [some ⟨"loop", "a"⟩, some ⟨"loop", "b"⟩])) (by decide +kernel)
  obtain ⟨c, hc, hresult⟩ := exists_ok_of_any (x := ofJson (.withDefaults .coze) twoOutputs)
    (q := fun c => decide (c.report.isClean = true ∧ ∃ n ∈ c.graph.walk, n.id = "done" ∧
      n.inputs.map Input.reference? =
        [some ⟨"loop", "output", .any⟩, some ⟨"loop", "output", .any⟩])) (by decide +kernel)
  obtain ⟨hids, hloop, hreader⟩ := of_decide_eq_true hd
  obtain ⟨hclean, hcaptured⟩ := of_decide_eq_true hresult
  exact ⟨d, c, hparse, hids, hc, hclean, hloop, hreader, hcaptured⟩

end Conversion

end WorkflowGraph
