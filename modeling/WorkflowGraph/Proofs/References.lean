/-
# References that are left out

A converted graph holds no reference to a node that it does not hold. The inputs and the
settings of its nodes are compared here with those that the decoders made: what a node has
lost is a list of references, each under the name of the input or of the slot that held
it, and these lists together are the findings about dangling references. The comparison
is a relation of its own, which says nothing about how the references are looked for. It
does not look at the body and the entry edges of an iteration node, because a decoder
leaves them empty.
-/

import Mathlib.Data.List.Basic
import WorkflowGraph.Proofs.AssembledGraph
import WorkflowGraph.Proofs.Findings

namespace WorkflowGraph

/-- A reference that a node has lost, under the name of its input or of its slot in the
settings. -/
structure LostReference where
  node : String
  slot : String
  reference : Reference

/-- The finding that reports a lost reference. -/
def LostReference.finding (lost : LostReference) : Diagnostic :=
  .danglingReference lost.node lost.slot lost.reference.node

/-- The members of a list are trimmed one by one and lose their references one after the
other. -/
inductive EachTrims {α : Type} (trims : α → α → List LostReference → Prop) :
    List α → List α → List LostReference → Prop
  | nil : EachTrims trims [] [] []
  | cons {a b : α} {as bs : List α} {lost more : List LostReference} :
      trims a b lost → EachTrims trims as bs more →
        EachTrims trims (a :: as) (b :: bs) (lost ++ more)

/-- A slot is left as it is, or cleared. -/
inductive SlotTrims (node slot : String) :
    Option Reference → Option Reference → List LostReference → Prop
  | kept {r : Option Reference} : SlotTrims node slot r r []
  | cleared {r : Reference} : SlotTrims node slot (some r) none [⟨node, slot, r⟩]

/-- Inputs are left as they are, or dropped if they are references; their order stays. -/
inductive InputsTrim (node : String) : List Input → List Input → List LostReference → Prop
  | nil : InputsTrim node [] [] []
  | kept {i : Input} {is js : List Input} {lost : List LostReference} :
      InputsTrim node is js lost → InputsTrim node (i :: is) (i :: js) lost
  | dropped {i : Input} {r : Reference} {is js : List Input} {lost : List LostReference} :
      i.reference? = some r → InputsTrim node is js lost →
        InputsTrim node (i :: is) js (⟨node, i.name, r⟩ :: lost)

/-- A comparison may lose its left operand. -/
inductive ConditionTrims (node slot : String) : Condition → Condition → List LostReference → Prop
  | left {k : Condition} {left : Option Reference} {lost : List LostReference} :
      SlotTrims node slot k.left left lost → ConditionTrims node slot k { k with left := left } lost

/-- The operands of a branch are lost under its id. -/
inductive CaseTrims (node : String) : BranchCase → BranchCase → List LostReference → Prop
  | conditions {c : BranchCase} {conditions : List Condition} {lost : List LostReference} :
      EachTrims (ConditionTrims node c.id) c.conditions conditions lost →
        CaseTrims node c { c with conditions := conditions } lost

/-- Settings may lose the references in their slots and nothing else. The body and the entry
edges of an iteration are put in later. -/
inductive ConfigTrims (node : String) : Config → Config → List LostReference → Prop
  | same {config : Config} : ConfigTrims node config config []
  | condition {cases trimmed : List BranchCase} {lost : List LostReference} :
      EachTrims (CaseTrims node) cases trimmed lost →
        ConfigTrims node (.condition cases) (.condition trimmed) lost
  | classifier {c : ClassifierConfig} {query : Option Reference} {lost : List LostReference} :
      SlotTrims node "query" c.query query lost →
        ConfigTrims node (.classifier c) (.classifier { c with query := query }) lost
  | iteration {loop : Loop} {iterator output : Option Reference} {lost more : List LostReference}
      {entryEdges : List Edge} {body : Graph} :
      SlotTrims node "iterator" loop.iterator iterator lost →
        SlotTrims node "output" loop.output output more →
          ConfigTrims node (.iteration loop)
            (.iteration { loop with iterator, output, entryEdges, body }) (lost ++ more)

/-- A node may lose inputs and slots of its settings; all else stays. -/
inductive Node.Trims : Node → Node → List LostReference → Prop
  | node {n : Node} {inputs : List Input} {config : Config} {lost more : List LostReference} :
      InputsTrim n.id n.inputs inputs lost → ConfigTrims n.id n.config config more →
        Node.Trims n { n with inputs, config } (lost ++ more)

namespace Dangling

variable {present : List String}

/-- Lost references that name no node that is present, each with its finding. -/
structure Explains (present : List String) (lost : List LostReference)
    (findings : List Diagnostic) : Prop where
  findings : lost.map LostReference.finding = findings
  absent : ∀ r ∈ lost, r.reference.node ∉ present

theorem Explains.nil : Explains present [] [] :=
  ⟨rfl, nofun⟩

theorem Explains.append {lost more : List LostReference} {findings others : List Diagnostic}
    (hlost : Explains present lost findings) (hmore : Explains present more others) :
    Explains present (lost ++ more) (findings ++ others) where
  findings := by rw [List.map_append, hlost.findings, hmore.findings]
  absent := List.forall_mem_append.mpr ⟨hlost.absent, hmore.absent⟩

theorem isDangling_iff (r : Reference) : isDangling present r = true ↔ r.node ∉ present := by
  simp [isDangling]

theorem finding?_some (node slot : String) (r : Reference) :
    finding? present node slot (some r) =
      if isDangling present r then some (.danglingReference node slot r.node) else none := by
  rw [finding?, Option.filter_some]
  split <;> rfl

theorem kept_some (r : Reference) :
    kept present (some r) = if isDangling present r then none else some r := by
  cases hdangling : isDangling present r <;> simp [kept, hdangling]

/-- Members that each lose what is reported of them lose together what is reported of all. -/
theorem eachTrims_map {α : Type} {trims : α → α → List LostReference → Prop} {φ : α → α}
    {findings : α → List Diagnostic}
    (htrims : ∀ a, ∃ lost, trims a (φ a) lost ∧ Explains present lost (findings a))
    (as : List α) :
    ∃ lost, EachTrims trims as (as.map φ) lost ∧ Explains present lost (as.flatMap findings) := by
  induction as with
  | nil => exact ⟨[], .nil, .nil⟩
  | cons a as ih =>
      obtain ⟨lost, hlost, hfound⟩ := htrims a
      obtain ⟨more, hmore, hothers⟩ := ih
      exact ⟨lost ++ more, .cons hlost hmore, hfound.append hothers⟩

section Trimming

variable (present)

theorem slotTrims_kept (node slot : String) (r : Option Reference) :
    ∃ lost, SlotTrims node slot r (kept present r) lost ∧
      Explains present lost (finding? present node slot r).toList := by
  cases r with
  | none => exact ⟨[], .kept, .nil⟩
  | some r =>
      rw [kept_some, finding?_some]
      split
      next hdangling =>
          refine ⟨[⟨node, slot, r⟩], .cleared, rfl, fun lost hlost => ?_⟩
          obtain rfl := List.mem_singleton.mp hlost
          exact (isDangling_iff r).mp hdangling
      next => exact ⟨[], .kept, .nil⟩

theorem inputsTrim_filter (node : String) (is : List Input) :
    ∃ lost, InputsTrim node is (is.filter (keepsInput present)) lost ∧
      Explains present lost
        (is.filterMap fun i => finding? present node i.name i.reference?) := by
  induction is with
  | nil => exact ⟨[], .nil, .nil⟩
  | cons i is ih =>
      obtain ⟨lost, hlost, hfound⟩ := ih
      rw [List.filter_cons, List.filterMap_cons, keepsInput]
      cases hreference : i.reference? with
      | none => exact ⟨lost, .kept hlost, hfound⟩
      | some r =>
          rw [finding?_some]
          dsimp only
          by_cases hdangling : isDangling present r = true
          · simp only [hdangling, Bool.not_true, Bool.false_eq_true, if_true, if_false]
            refine ⟨⟨node, i.name, r⟩ :: lost, .dropped hreference hlost, ?_, ?_⟩
            · rw [List.map_cons, hfound.findings]
              rfl
            · exact List.forall_mem_cons.mpr ⟨(isDangling_iff r).mp hdangling, hfound.absent⟩
          · simp only [hdangling, Bool.not_false, if_true]
            exact ⟨lost, .kept hlost, hfound⟩

theorem caseTrims_clean (node : String) (c : BranchCase) :
    ∃ lost, CaseTrims node c (cleanCase present c) lost ∧
      Explains present lost
        (c.conditions.filterMap fun k => finding? present node c.id k.left) := by
  have hcondition : ∀ k, ∃ lost, ConditionTrims node c.id k (cleanCondition present k) lost ∧
      Explains present lost (finding? present node c.id k.left).toList := by
    intro k
    obtain ⟨lost, hlost, hfound⟩ := slotTrims_kept present node c.id k.left
    exact ⟨lost, .left hlost, hfound⟩
  obtain ⟨lost, hlost, hfound⟩ := eachTrims_map hcondition c.conditions
  rw [List.filterMap_eq_flatMap_toList]
  exact ⟨lost, .conditions hlost, hfound⟩

theorem configTrims_clean (node : String) (config : Config) :
    ∃ lost, ConfigTrims node config (cleanConfig present config) lost ∧
      Explains present lost (configFindings present node config) := by
  cases config with
  | condition cases =>
      obtain ⟨lost, hlost, hfound⟩ := eachTrims_map (caseTrims_clean present node) cases
      exact ⟨lost, .condition hlost, hfound⟩
  | classifier c =>
      obtain ⟨lost, hlost, hfound⟩ := slotTrims_kept present node "query" c.query
      exact ⟨lost, .classifier hlost, hfound⟩
  | iteration loop =>
      obtain ⟨lost, hlost, hfound⟩ := slotTrims_kept present node "iterator" loop.iterator
      obtain ⟨more, hmore, hothers⟩ := slotTrims_kept present node "output" loop.output
      exact ⟨lost ++ more, .iteration hlost hmore, hfound.append hothers⟩
  | _ => exact ⟨[], .same, .nil⟩

/-- A node loses exactly the references that are reported of it. -/
theorem trims_cleanNode (n : Node) :
    ∃ lost, n.Trims (cleanNode present n) lost ∧
      Explains present lost (nodeFindings present n) := by
  obtain ⟨lost, hlost, hfound⟩ := inputsTrim_filter present n.id n.inputs
  obtain ⟨more, hmore, hothers⟩ := configTrims_clean present n.id n.config
  exact ⟨lost ++ more, .node hlost hmore, hfound.append hothers⟩

end Trimming

theorem present_of_kept {r : Reference} {slot : Option Reference}
    (hr : kept present slot = some r) : r.node ∈ present := by
  obtain ⟨-, hkept⟩ := Option.filter_eq_some_iff.mp hr
  simpa [isDangling] using hkept

theorem present_of_mem_configReferences {n : Node} {r : Reference}
    (hr : r ∈ (cleanNode present n).configReferences) : r.node ∈ present := by
  unfold Node.configReferences cleanNode cleanConfig at hr
  cases hconfig : n.config with
  | condition cases =>
      simp only [hconfig, List.mem_flatMap, List.mem_map, List.mem_filterMap] at hr
      obtain ⟨_, ⟨c, -, rfl⟩, k, hk, hleft⟩ := hr
      obtain ⟨own, -, rfl⟩ := List.mem_map.mp hk
      exact present_of_kept hleft
  | classifier c =>
      simp only [hconfig, Option.mem_toList] at hr
      exact present_of_kept hr
  | iteration loop =>
      simp only [hconfig, List.mem_append, Option.mem_toList] at hr
      rcases hr with hiterator | houtput
      · exact present_of_kept hiterator
      · exact present_of_kept houtput
  | _ =>
      simp only [hconfig] at hr
      cases hr

/-- The references that a node keeps name nodes that are present. -/
theorem present_of_mem_references {n : Node} {r : Reference}
    (hr : r ∈ (cleanNode present n).references) : r.node ∈ present := by
  rcases List.mem_append.mp hr with hinputs | hconfig
  · obtain ⟨i, hi, hreference⟩ := List.mem_filterMap.mp hinputs
    have hkeeps := (List.mem_filter.mp hi).2
    rw [keepsInput, hreference] at hkeeps
    simpa [isDangling] using hkeeps
  · exact present_of_mem_configReferences hconfig

end Dangling

namespace Node

/-- A body and entry edges hold no slot of the node. -/
theorem references_withBody (part : EdgePartition) (n : Node) (body : Graph) :
    (n.withBody part body).references = n.references := by
  unfold withBody reattach?
  cases hconfig : n.config with
  | iteration loop => simp [references, configReferences, hconfig]
  | _ => rfl

theorem Trims.withBody {n m : Node} {lost : List LostReference} (htrims : n.Trims m lost)
    (part : EdgePartition) (body : Graph) : n.Trims (m.withBody part body) lost := by
  cases htrims with
  | @node inputs config lost more hinputs hconfig =>
      cases config with
      | iteration loop =>
          apply Trims.node hinputs
          generalize n.config = own at hconfig ⊢
          cases hconfig with
          | same => exact .iteration .kept .kept
          | iteration hiterator houtput => exact .iteration hiterator houtput
      | _ => exact .node hinputs hconfig

end Node

theorem EachTrims.append {α : Type} {trims : α → α → List LostReference → Prop}
    {as bs cs ds : List α} {lost more : List LostReference} (hfirst : EachTrims trims as bs lost)
    (hsecond : EachTrims trims cs ds more) :
    EachTrims trims (as ++ cs) (bs ++ ds) (lost ++ more) := by
  induction hfirst with
  | nil => exact hsecond
  | cons htrims _ ih =>
      rw [List.append_assoc]
      exact .cons htrims ih

namespace Assembly

open WorkflowGraph.Graph Dangling

/-- The walk of the graph of a nesting meets the nodes of the nesting, each without the
references that are reported of it. -/
theorem eachTrims_attached (p : Platform) (part : EdgePartition) (present : List String)
    {f : Nested Node} (hfresh : f.IsFresh) :
    ∃ lost, EachTrims Node.Trims f.members
        (walkNodes (attached p part (f.clean present))) lost ∧
      Explains present lost (f.members.flatMap (nodeFindings present)) := by
  induction hfresh with
  | nil => exact ⟨[], .nil, .nil⟩
  | @leaf n rest hn _ ih =>
      obtain ⟨lost, hlost, hfound⟩ := trims_cleanNode present n
      obtain ⟨more, hmore, hothers⟩ := ih
      have hbare : n.Trims (bare part (cleanNode present n)) lost := by
        unfold bare
        split
        · exact hlost.withBody part .empty
        · exact hlost
      refine ⟨lost ++ more, ?_, hfound.append hothers⟩
      rw [Nested.clean, Nested.map, walkNodes_attached_leaf _ _ (isFresh_cleanNode present hn)]
      exact .cons hbare hmore
  | @loop n inner rest hn hkind _ _ ihInner ihRest =>
      obtain ⟨lost, hlost, hfound⟩ := trims_cleanNode present n
      obtain ⟨inside, hinside, hwithin⟩ := ihInner
      obtain ⟨more, hmore, hothers⟩ := ihRest
      refine ⟨lost ++ (inside ++ more), ?_, ?_⟩
      · rw [Nested.clean, Nested.map,
          walkNodes_attached_loop _ _ (isFresh_cleanNode present hn) hkind]
        exact .cons (hlost.withBody part _) (hinside.append hmore)
      · rw [Nested.members, List.flatMap_cons, List.flatMap_append]
        exact hfound.append (hwithin.append hothers)

end Assembly

namespace Document

/-- A document that points at a missing node from an input, from the operand of a branch,
from a classifier and from both slots of a loop. A block of the loop points out of its body
at a node that is there. -/
def lostPointers : Document :=
  let nobody : Pointer := ⟨"nobody", "x"⟩
  let begin : Pointer := ⟨"begin", "x"⟩
  ⟨[.bare "begin" "1",
    { Record.bare "run" "5" with
      inputs := [⟨"first", none, .pointer begin⟩, ⟨"second", none, .pointer nobody⟩,
        ⟨"third", none, .literal .null⟩] },
    { Record.bare "ask" "8" with
      params := [("cases", .arr [.obj [("id", .str "yes"),
        ("conditions", .arr [.obj [("left", nobody.toJson)]])]])] },
    { Record.bare "sort" "22" with params := [("query", nobody.toJson)] },
    { Record.bare "each" "21" with
      params := [("iterator", nobody.toJson), ("output", nobody.toJson)]
      blocks := some ⟨[{ Record.bare "step" "5" with
        inputs := [⟨"item", none, .pointer begin⟩] }], []⟩ }],
   [], ∅⟩

end Document

namespace Conversion

open Assembly Dangling

variable {p : Platform} {g : Registry} {d : Document} {l : Lifted} {t : Nested Record}
  {f : Nested Node}

/-- The ids that are collected from the lifted levels are those of the nodes that a walk
of the graph meets. -/
theorem Rebuilt.ids_walk_perm (hrebuilt : Rebuilt g d l t f) (hfresh : f.IsFresh) :
    (presentIds l.levels).Perm ((assemble g.platform l).1.walk.map Node.id) := by
  rw [hrebuilt.graph, Graph.walk_eq, Assembly.graph,
    map_walkNodes_attached _ _ (Node.withBody_id _) (hfresh.clean _), Nested.clean,
    Nested.members_map, List.map_map]
  have hmembers := (f.levels_perm_members Node.id .root).map Node.id
  rw [List.map_flatMap] at hmembers
  rw [presentIds, hrebuilt.mirrors.levels, List.flatMap_map]
  exact hmembers

/-- No reference of a converted graph dangles, and each one that is left out is reported
once: the walk of the graph meets the nodes that were decoded, in document order, and what
they have lost is what the findings about dangling references name. -/
theorem ofDocument_references {c : Conversion} (hg : Registry.Derived p g)
    (hapart : d.LoopsApart g) (hc : ofDocument g d = .ok c) :
    (∀ n ∈ c.graph.walk, ∀ r ∈ n.references, ∃ m ∈ c.graph.walk, m.id = r.node) ∧
      ∃ (l : Lifted) (f : Nested Node) (lost : List LostReference),
        Lifted.ofDocument? g d = some l ∧
        l.levels = (f.levels Node.id .root).map (fun e => (e.1, e.2.roots)) ∧
          EachTrims Node.Trims f.members c.graph.walk lost ∧
            (∀ r ∈ lost, ∀ m ∈ c.graph.walk, m.id ≠ r.reference.node) ∧
              (lost.map LostReference.finding).Perm (c.report.ofKind .danglingReference) := by
  have hbuiltIns := hg.usesBuiltIns
  obtain ⟨_, l, hlifted, hvalid, rfl⟩ := ofDocument_eq_ok_iff.mp hc
  obtain ⟨resolver, t, f, hunrolls, hdecodes, hmirrors⟩ :=
    Lifted.ofDocument?_mirrors hbuiltIns hlifted
  have hrebuilt := rebuilt_of_loopsApart hbuiltIns hapart hunrolls hdecodes hmirrors
    (Or.inr hvalid)
  have hfresh := hdecodes.isFresh hbuiltIns
  have hids := hrebuilt.ids_walk_perm hfresh
  have hwalk : (assemble g.platform l).1.walk = Graph.walkNodes (attached g.platform
      (partition g.platform l) (f.clean (presentIds l.levels))) := by
    rw [hrebuilt.graph, Graph.walk_eq, Assembly.graph]
  obtain ⟨lost, hlost, hfound⟩ := eachTrims_attached g.platform (partition g.platform l)
    (presentIds l.levels) hfresh
  refine ⟨fun n hn r hr => ?_, l, f, lost, hlifted, hmirrors.levels, hwalk ▸ hlost,
    fun r hr m hm hid => ?_, ?_⟩
  · have hreferences := map_walkNodes_attached g.platform (partition g.platform l)
      (Node.references_withBody _) (hfresh.clean (presentIds l.levels))
    rw [Nested.clean, Nested.members_map, List.map_map, ← Nested.clean, ← hwalk] at hreferences
    obtain ⟨own, -, hown⟩ := List.mem_map.mp (hreferences ▸ List.mem_map_of_mem hn)
    rw [← hown] at hr
    exact List.mem_map.mp (hids.mem_iff.mp (present_of_mem_references hr))
  · exact hfound.absent r hr (hids.mem_iff.mpr (List.mem_map.mpr ⟨m, hm, hid⟩))
  · rw [hfound.findings, ofKind_danglingReference hmirrors.report, danglingReferences,
      hmirrors.levels, List.flatMap_map]
    have hmembers := (f.levels_perm_members Node.id .root).flatMap_right
      (nodeFindings (presentIds l.levels))
    rw [List.flatMap_assoc, hmirrors.levels] at hmembers
    exact hmembers.symm

theorem ofDocument_references_lostPointers :
    Registry.Derived .coze (.withDefaults .coze) ∧
      Document.lostPointers.LoopsApart (.withDefaults .coze) ∧
        ∃ c, ofDocument (.withDefaults .coze) Document.lostPointers = .ok c ∧
          (∀ n ∈ c.graph.walk, ∀ r ∈ n.references, ∃ m ∈ c.graph.walk, m.id = r.node) ∧
            ∃ (f : Nested Node) (lost : List LostReference),
              EachTrims Node.Trims f.members c.graph.walk lost ∧
                (lost.map LostReference.finding).Perm
                  [.danglingReference "run" "second" "nobody",
                   .danglingReference "ask" "yes" "nobody",
                   .danglingReference "sort" "query" "nobody",
                   .danglingReference "each" "iterator" "nobody",
                   .danglingReference "each" "output" "nobody"] := by
  have hresult : (ofDocument (.withDefaults .coze) Document.lostPointers).toOption.map
      (fun c => c.report.ofKind .danglingReference) =
        some [.danglingReference "run" "second" "nobody",
          .danglingReference "ask" "yes" "nobody",
          .danglingReference "sort" "query" "nobody",
          .danglingReference "each" "iterator" "nobody",
          .danglingReference "each" "output" "nobody"] := by
    decide +kernel
  obtain ⟨c, hc, hreport⟩ := Option.map_eq_some_iff.mp hresult
  have hapart : Document.lostPointers.LoopsApart (.withDefaults .coze) :=
    Document.loopsApart_of_unroll? 8 (by decide +kernel)
  have hok := eq_ok_of_toOption_eq_some hc
  obtain ⟨hclosed, l, f, lost, -, -, htrims, -, hperm⟩ :=
    ofDocument_references .defaults hapart hok
  exact ⟨.defaults, hapart, c, hok, hclosed, f, lost, htrims, hreport ▸ hperm⟩

end Conversion

end WorkflowGraph
