/-
# Loops that name a node of the graph

The parameters of a loop may name the loop-start node of its body, and from then on the id
stands for the loop wherever a pointer names it. Nobody asks whether the id is that of a
loop-start node: where it is the id of a node of the graph, pointers to that node are
captured as pointers to the loop. The last loop that names an id counts.
-/

import WorkflowGraph.Proofs.CarriedPointers
import WorkflowGraph.Proofs.ParsedRecords
import WorkflowGraph.Proofs.RootOrder

namespace WorkflowGraph

namespace Document

/-- The loops of a nesting, in document order, that name an id as their loop-start node. -/
def loopsNaming (g : Registry) (t : Nested Record) (id : String) : List Record :=
  t.members.filter fun r => g.isLoop r && r.startNode? == some id

/-- The node that the loops of a nesting let an id stand for. -/
def namedNode (g : Registry) (t : Nested Record) (id : String) : String :=
  ((loopsNaming g t id).getLast?.map Record.id).getD id

end Document

namespace Survey

open Document

variable {g : Registry} {d : Document} {id : String}

/-- The record is surveyed as a loop exactly if it becomes one, and is no loop-start node
with the id. -/
structure Ordinary (g : Registry) (id : String) (r : Record) : Prop where
  iterates : ∀ level, g.iterates level r = g.isLoop r
  start : g.platform.isPseudoTag r.tag = true → r.id ≠ id

/-- The entries of a loop for itself let an id stand for it if it names the id. -/
theorem filterMap_own (hsome : id ≠ "") (r : Record) :
    (outputEntries r ++ startEntries r).filterMap (Resolver.Entry.nodeFor? id) =
      if r.startNode? == some id then [r.id] else [] := by
  have houtputs : (outputEntries r).filterMap (Resolver.Entry.nodeFor? id) = [] := by
    refine List.filterMap_eq_nil_iff.mpr fun e he => ?_
    obtain ⟨o, -, -, rfl⟩ := mem_outputEntries_iff.mp he
    rfl
  rw [List.filterMap_append, houtputs, List.nil_append, startEntries, ← Record.startNode?]
  cases r.startNode? with
  | none => rfl
  | some start =>
      by_cases hid : start = id
      · simp [hid, hsome, Resolver.Entry.nodeFor?]
      · dsimp only
        split <;> simp [hid, Resolver.Entry.nodeFor?]

variable {inner : String → Blocks → Option (List Resolver.Entry)} {level : Level} {r : Record}
  {added : List Resolver.Entry}

theorem filterMap_leaf (hsome : id ≠ "") (hr : Ordinary g id r) (hclosed : d.opened? g r = none)
    (hadds : Adds g d inner level r added) :
    added.filterMap (Resolver.Entry.nodeFor? id) =
      if g.isLoop r && r.startNode? == some id then [r.id] else [] := by
  rw [← hr.iterates level]
  cases hadds with
  | start hlevel hpseudo =>
      subst hlevel
      simp [Registry.iterates, hpseudo, Resolver.Entry.nodeFor?, hr.start hpseudo]
  | other _ hnot => simp [hnot]
  | bare hloop _ => simp [hloop, filterMap_own hsome]
  | loop hloop hbody _ =>
      rw [hr.iterates] at hloop
      cases hclosed.symm.trans (opened?_eq_some_iff.mpr ⟨hloop, hbody⟩)

theorem filterMap_loop (hsome : id ≠ "") (hr : Ordinary g id r) {body : Blocks}
    (hopen : d.opened? g r = some body) (hadds : Adds g d inner level r added) :
    ∃ nested, inner r.id body = some nested ∧
      added.filterMap (Resolver.Entry.nodeFor? id) =
        (if g.isLoop r && r.startNode? == some id then [r.id] else []) ++
          nested.filterMap (Resolver.Entry.nodeFor? id) := by
  obtain ⟨hloop, hbody⟩ := opened?_eq_some_iff.mp hopen
  have hiterates := (hr.iterates level).trans hloop
  cases hadds with
  | start hlevel hpseudo =>
      subst hlevel
      simp [Registry.iterates, hpseudo] at hiterates
  | other _ hnot => cases hnot.symm.trans hiterates
  | bare _ hnone => cases hnone.symm.trans hbody
  | loop _ hown hnested =>
      obtain rfl := Option.some.inj (hown.symm.trans hbody)
      exact ⟨_, hnested, by rw [List.filterMap_append, filterMap_own hsome, hloop, Bool.true_and]⟩

/-- A survey lets an id stand for the loops that name it, in document order. -/
theorem filterMap_within (hsome : id ≠ "") {rs : List Record} {t : Nested Record}
    (ht : d.Unrolls g rs t) : ∀ n (level : Level) entries, (∀ r ∈ t.members, Ordinary g id r) →
      within g d n level.owner? rs = some entries →
        entries.filterMap (Resolver.Entry.nodeFor? id) =
          (loopsNaming g t id).map Record.id := by
  induction ht with
  | nil =>
      intro n level entries _ hentries
      cases n with
      | zero => cases hentries
      | succ n =>
          obtain rfl := Option.some.inj hentries
          rfl
  | @leaf r rs t hclosed _ ih =>
      intro n level entries hall hentries
      cases n with
      | zero => cases hentries
      | succ n =>
          obtain ⟨hr, hlater⟩ := List.forall_mem_cons.mp hall
          obtain ⟨added, rest, hadded, hrest, rfl⟩ := ofRecords_cons_eq_some hentries
          rw [List.filterMap_append, filterMap_leaf hsome hr hclosed (adds_of_ofRecord hadded),
            ih (n + 1) level rest hlater hrest, loopsNaming, loopsNaming, Nested.members,
            List.filter_cons]
          split <;> rfl
  | @loop r rs body innerTree t hopen _ _ ihInner ih =>
      intro n level entries hall hentries
      cases n with
      | zero => cases hentries
      | succ n =>
          obtain ⟨hr, hlater⟩ := List.forall_mem_cons.mp hall
          obtain ⟨hinside, hafter⟩ := List.forall_mem_append.mp hlater
          obtain ⟨added, rest, hadded, hrest, rfl⟩ := ofRecords_cons_eq_some hentries
          obtain ⟨nested, hnested, hhere⟩ :=
            filterMap_loop hsome hr hopen (adds_of_ofRecord hadded)
          rw [List.filterMap_append, hhere, ihInner n (.body r.id) nested hinside hnested,
            ih (n + 1) level rest hafter hrest, loopsNaming, loopsNaming, loopsNaming,
            Nested.members, List.filter_cons, List.filter_append, List.append_assoc]
          split <;> simp

/-- An id that is no loop-start node's stands for the last loop that names it. -/
theorem nodeId_eq_namedNode {resolver : Resolver} (hresolver : resolver? g d = some resolver)
    {t : Nested Record} (ht : d.Unrolls g d.records t) (hsome : id ≠ "")
    (hall : ∀ r ∈ t.members, Ordinary g id r) : resolver.nodeId id = namedNode g t id := by
  obtain ⟨entries, hentries, rfl⟩ := Option.map_eq_some_iff.mp hresolver
  rw [Resolver.nodeId_ofEntries_eq, filterMap_within hsome ht _ .root _ hall hentries,
    List.getLast?_map, namedNode]

/-- For the id of a record that is no loop-start node, all records of an export with distinct
ids are ordinary. -/
theorem ordinary_of_lies {p : Platform} {exported : Json} {t : Nested Record} {place : Level}
    {own : Record} (hparse : p.parseDocument exported = .ok d) (hids : d.DistinctIds)
    (ht : d.Unrolls (.withDefaults p) d.records t) (hlies : t.Lies Record.id .root place own)
    (hplain : (Registry.withDefaults p).platform.isPseudoTag own.tag = false) :
    ∀ r ∈ t.members, Ordinary (.withDefaults p) own.id r := by
  intro r hr
  obtain ⟨other, hother⟩ := Nested.exists_lies Record.id .root hr
  have hrecord := ht.mem_allRecords hother
  refine ⟨Platform.iterates_eq_isLoop hparse (holds_of_mem_allRecords hrecord), ?_⟩
  intro hpseudo hid
  obtain rfl := List.inj_on_of_nodup_map hids (ht.mem_allRecords hlies) hrecord hid.symm
  cases hplain.symm.trans hpseudo

end Survey

namespace Conversion

open Document

variable {p : Platform} {exported : Json} {d : Document} {c : Conversion}

/-- A reference that is captured from a pointer to a node of the graph keeps the id of that
node, unless some loop names the id as that of its loop-start node: then the reference is to
the last loop in document order that does. -/
theorem ofJson_namedNodes (hparse : p.parseDocument exported = .ok d) (hids : d.DistinctIds)
    (hc : ofJson (.withDefaults p) exported = .ok c) :
    ∃ t, d.Unrolls (.withDefaults p) d.records t ∧
      ∀ n ∈ c.graph.walk, ∃ r ∈ d.allRecords, r.id = n.id ∧
        n.Carries (fun q ref => q.node ∈ c.graph.walk.map Node.id →
          ref.node = namedNode (.withDefaults p) t q.node) r := by
  have hg := (Registry.Derived.defaults (p := p)).usesBuiltIns
  have hconverted := ofDocument_of_ofJson hparse hc
  obtain ⟨⟨⟨⟩, hcheck⟩, -⟩ := ofDocument_eq_ok_iff.mp hconverted
  obtain ⟨resolver, t, f, l, hresolver, ht, hdecodes, -, hrebuilt, rfl⟩ :=
    exists_rebuilt_of_ok hg hids hconverted
  refine ⟨t, ht, fun n hn => ?_⟩
  obtain ⟨place, r, hlies, own, -, hbecomes, hfinishes⟩ := hrebuilt.exists_finishes hg hdecodes hn
  refine ⟨r, ht.mem_allRecords hlies, ?_, ?_⟩
  · rw [hfinishes.id_eq, hbecomes.id_eq hg]
  · refine (hfinishes.carries (hbecomes.carries hg)).mono ?_
    rintro q ref ⟨type, rfl⟩ hproducer
    obtain ⟨m, hm, hid⟩ := List.mem_map.mp hproducer
    obtain ⟨other, producer, hplace, made, -, hmade, hdone⟩ :=
      hrebuilt.exists_finishes hg hdecodes hm
    have hsame : producer.id = q.node := by rw [← hid, hdone.id_eq, hmade.id_eq hg]
    have hpasses := passes_of_holds hcheck (holds_of_mem_allRecords (ht.mem_allRecords hplace))
    have hsome : producer.id ≠ "" := by
      intro hempty
      cases (hempty ▸ hpasses.id : Text.isBlankText "" = false)
    rw [← hsame]
    exact Survey.nodeId_eq_namedNode hresolver ht hsome
      (Survey.ordinary_of_lies hparse hids ht hplace hmade.1)

/-- A loop that names the step `pick` of its body as the node that it starts with, and a second
step that reads the result of the first. -/
def startsAtStep : Json :=
  let step (id : String) (data : List (String × Json)) : Json :=
    .obj [("id", .str id), ("parentId", .str "each"),
      ("data", .obj (("type", .str "code") :: data))]
  .obj [("nodes", .arr
    [.obj [("id", .str "each"), ("data", .obj [("type", .str "iteration"),
      ("start_node_id", .str "pick")])],
     step "pick" [("outputs", .obj [("result", .obj [])])],
     step "use" [("variables", .arr [.obj [("variable", .str "v"),
      ("value_selector", .arr [.str "pick", .str "result"])]])]])]

theorem ofJson_namedNodes_startsAtStep :
    ∃ d c, Platform.dify.parseDocument startsAtStep = .ok d ∧ d.DistinctIds ∧
      ofJson (.withDefaults .dify) startsAtStep = .ok c ∧
        ∃ t, d.Unrolls (.withDefaults .dify) d.records t ∧
          ∀ n ∈ c.graph.walk, ∃ r ∈ d.allRecords, r.id = n.id ∧
            n.Carries (fun q ref => q.node ∈ c.graph.walk.map Node.id →
              ref.node = namedNode (.withDefaults .dify) t q.node) r := by
  obtain ⟨d, hparse, hids⟩ := exists_ok_of_any (x := Platform.dify.parseDocument startsAtStep)
    (q := fun d => decide d.DistinctIds) (by decide +kernel)
  obtain ⟨c, hc, -⟩ := exists_ok_of_any (x := ofJson (.withDefaults .dify) startsAtStep)
    (q := fun _ => true) (by decide +kernel)
  have hids := of_decide_eq_true hids
  exact ⟨d, c, hparse, hids, hc, ofJson_namedNodes hparse hids hc⟩

/-- The second step names the result of the first, which is a node of the graph, and its input
is captured as one from the loop. -/
theorem startsAtStep_redirected :
    ∃ d c, Platform.dify.parseDocument startsAtStep = .ok d ∧ d.DistinctIds ∧
      ofJson (.withDefaults .dify) startsAtStep = .ok c ∧
        (∃ r ∈ d.allRecords, r.id = "use" ∧
          r.inputs.map RecordInput.pointer? = [some ⟨"pick", "result"⟩]) ∧
          (∃ n ∈ c.graph.walk, n.id = "pick") ∧
            ∃ n ∈ c.graph.walk, n.id = "use" ∧
              n.inputs.map Input.reference? = [some ⟨"each", "result", .any⟩] := by
  obtain ⟨d, hparse, hd⟩ := exists_ok_of_any (x := Platform.dify.parseDocument startsAtStep)
    (q := fun d => decide (d.DistinctIds ∧ ∃ r ∈ d.allRecords, r.id = "use" ∧
      r.inputs.map RecordInput.pointer? = [some ⟨"pick", "result"⟩])) (by decide +kernel)
  obtain ⟨c, hc, hgraph⟩ := exists_ok_of_any (x := ofJson (.withDefaults .dify) startsAtStep)
    (q := fun c => decide ((∃ n ∈ c.graph.walk, n.id = "pick") ∧
      ∃ n ∈ c.graph.walk, n.id = "use" ∧
        n.inputs.map Input.reference? = [some ⟨"each", "result", .any⟩])) (by decide +kernel)
  obtain ⟨hids, hreader⟩ := of_decide_eq_true hd
  exact ⟨d, c, hparse, hids, hc, hreader, of_decide_eq_true hgraph⟩

end Conversion

end WorkflowGraph
