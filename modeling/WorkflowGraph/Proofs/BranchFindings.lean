/-
# Findings about branches

An edge that is kept may leave on a handle that no rule of the platform understands, or select a
class that its classifier does not declare. The findings of a conversion about such handles are
those of the edges of its levels, each with the node of its own level that it leaves. The edges
into a loop and the edges that are left out have no part in them.
-/

import WorkflowGraph.Graph.Query
import WorkflowGraph.Proofs.RecordFindings
import WorkflowGraph.Proofs.RecordOrder

namespace WorkflowGraph

namespace Diagnostic

/-- The finding is about a handle that is not understood. -/
def isUnrecognizedHandle : Diagnostic → Bool
  | .unrecognizedHandle .. => true
  | _ => false

/-- The finding is about a class that is not declared. -/
def isBranchOutOfRange : Diagnostic → Bool
  | .branchOutOfRange .. => true
  | _ => false

/-- The finding is about the handle of an edge that is kept. -/
def isAboutBranch (found : Diagnostic) : Bool :=
  found.isUnrecognizedHandle || found.isBranchOutOfRange

theorem isAboutBranch_eq_false {found : Diagnostic} (hkind : found.kind ≠ .unsupportedConstruct) :
    found.isAboutBranch = false := by
  cases found <;> first | rfl | exact absurd rfl hkind

end Diagnostic

theorem Explained.isAboutBranch_eq_false {g : Registry} {d : Document} {found : Diagnostic}
    (hfound : Explained g d found) : found.isAboutBranch = false := by
  cases hfound <;> rfl

/-- The finding for a control edge that keeps a handle as it was spelled. -/
def Edge.unrecognized? (e : Edge) : Option Diagnostic :=
  match e.kind, e.sourceHandle with
  | .control, .raw handle => some (.unrecognizedHandle e.id e.source handle)
  | _, _ => none

/-- The finding for a control edge that selects a class past those that the node declares which
it leaves on its level. -/
def Graph.outOfRange? (level : Graph) (e : Edge) : Option Diagnostic :=
  match e.kind, e.sourceHandle, (level.node? e.source).map Node.config with
  | .control, .case index, some (.classifier c) =>
    if c.classes.length ≤ index then
      some (.branchOutOfRange e.id e.source index c.classes.length)
    else none
  | _, _, _ => none

namespace Assembly

variable {p : Platform} {part : EdgePartition}

/-- Where no id is repeated, a search from either end finds the same node. -/
theorem node?_eq_lastNode? {nodes : List Node} (hnodup : (nodes.map Node.id).Nodup)
    (es : List Edge) (id : String) : (Graph.mk nodes es).node? id = lastNode? nodes id := by
  rw [lastNode?_perm nodes.reverse_perm.symm hnodup, lastNode?, List.reverse_reverse]
  rfl

theorem filter_isUnrecognizedHandle {e : Edge} (hkind : e.kind = .control) (n : Node) :
    (edgeFindings e n).filter Diagnostic.isUnrecognizedHandle = e.unrecognized?.toList := by
  cases hhandle : e.sourceHandle with
  | case index =>
      cases hclasses : (Handle.case index).classesExceeded? n <;>
        simp [edgeFindings, Edge.unrecognized?, hkind, hhandle, hclasses,
          Diagnostic.isUnrecognizedHandle]
  | _ =>
      simp [edgeFindings, Edge.unrecognized?, hkind, hhandle, Diagnostic.isUnrecognizedHandle]

theorem filter_isBranchOutOfRange {level : Graph} {e : Edge} {n : Node} (hkind : e.kind = .control)
    (hn : level.node? e.source = some n) :
    (edgeFindings e n).filter Diagnostic.isBranchOutOfRange = (level.outOfRange? e).toList := by
  rw [Graph.outOfRange?, hkind, hn, Option.map_some]
  cases hhandle : e.sourceHandle with
  | case index =>
      cases hconfig : n.config with
      | classifier c =>
          by_cases hrange : c.classes.length ≤ index <;>
            simp [edgeFindings, hhandle, Handle.classesExceeded?, hconfig, hrange,
              Diagnostic.isBranchOutOfRange]
      | _ => simp [edgeFindings, hhandle, Handle.classesExceeded?, hconfig]
  | _ => simp [edgeFindings, hhandle, Diagnostic.isBranchOutOfRange]

/-- The findings of a sort for the edges of a level are read off the level, if those for one
edge are. -/
theorem filter_levelFindings {wanted : Diagnostic → Bool}
    {finding? : Graph → Edge → Option Diagnostic}
    (hedge : ∀ (level : Graph) (e : Edge) (n : Node), e.kind = .control →
      level.node? e.source = some n →
      (edgeFindings e n).filter wanted = (finding? level e).toList)
    (level : Level) {f : Nested Node} (hids : f.ids.Nodup) :
    (levelFindings p part level (attached p part f)).filter wanted =
      (graph p part level f).edges.filterMap (finding? (graph p part level f)) := by
  have hnodup : ((attached p part f).map Node.id).Nodup := by
    rw [ids_attached]
    exact hids
  rw [levelFindings, List.filter_flatMap, graph, edges, List.filterMap_map,
    List.filterMap_eq_flatMap_toList]
  apply List.flatMap_congr
  intro entry hentry
  obtain ⟨link, -, hlink⟩ := List.mem_filterMap.mp hentry
  obtain ⟨n, hn, rfl⟩ := Option.map_eq_some_iff.mp hlink
  apply hedge
  · rfl
  · rw [node?_eq_lastNode? hnodup]
    exact hn

/-- The findings inside the loops of a nesting are those of the levels inside them. -/
theorem innerFindings_eq (f : Nested Node) : innerFindings p part f =
    (f.bodies Node.id).flatMap fun e => levelFindings p part e.1 (attached p part e.2) := by
  induction f with
  | nil => rfl
  | leaf n rest ih => exact ih
  | loop n inner rest ihInner ihRest =>
      rw [innerFindings, Nested.bodies, List.flatMap_append, List.flatMap_cons, ihInner, ihRest,
        List.append_assoc]

end Assembly

/-- On the root and inside a loop, a node that leaves on a handle without a meaning, and a
classifier that is left on a class it does not have. The edge into the loop and the edge to a node
that is not there have odd handles as well. -/
def Document.strayBranches : Document :=
  ⟨[.bare "begin" "1",
    { Record.bare "sort" "22" with
      params := [("classes", .arr [.obj [("name", .str "bills")]])] },
    { Record.bare "each" "21" with
      blocks := some ⟨[.bare "step" "5",
          { Record.bare "pick" "22" with
            params := [("classes",
              .arr [.obj [("name", .str "paid")], .obj [("name", .str "open")]])] }],
        [⟨"", "pick", some "branch_2", "step", none⟩, ⟨"", "step", some "then", "pick", none⟩]⟩ },
    .bare "done" "2"],
   [⟨"", "begin", none, "sort", none⟩, ⟨"", "sort", some "branch_0", "each", none⟩,
    ⟨"", "each", some "loop-function-inline-output", "pick", none⟩,
    ⟨"", "each", some "then", "done", none⟩, ⟨"", "sort", some "branch_4", "done", none⟩,
    ⟨"", "sort", some "then", "nobody", none⟩], ∅⟩

namespace Conversion

open Assembly

variable {g : Registry} {d : Document} {l : Lifted} {t : Nested Record} {f : Nested Node}

/-- The findings about branches are those of the assembly. -/
theorem filter_diagnostics_assemble (hlifted : Lifted.ofDocument? g d = some l)
    {wanted : Diagnostic → Bool}
    (hwanted : ∀ found, wanted found = true → found.isAboutBranch = true) :
    (assemble g.platform l).2.diagnostics.filter wanted =
      (ofLevel g.platform (partition g.platform l) .root
        (LevelTable.ofLevels (cleanLevels l.levels))).diagnostics.filter wanted := by
  have hnone : ∀ ds : List Diagnostic, (∀ found ∈ ds, found.isAboutBranch = false) →
      ds.filter wanted = [] := by
    intro ds hds
    apply List.filter_eq_nil_iff.mpr
    intro found hfound hyes
    cases (hds found hfound).symm.trans (hwanted found hyes)
  have hharvest := hnone l.harvest.report.diagnostics fun found hfound =>
    ((Lifted.ofDocument?_explained hlifted).findings found hfound).isAboutBranch_eq_false
  have hedges := hnone (droppedEdges (partition g.platform l)) fun found hfound =>
    Diagnostic.isAboutBranch_eq_false (by rw [kind_droppedEdges _ found hfound]; decide)
  have hreferences := hnone (danglingReferences l.levels) fun found hfound =>
    Diagnostic.isAboutBranch_eq_false (by rw [kind_danglingReferences _ found hfound]; decide)
  rw [diagnostics_assemble, List.filter_append, List.filter_append, List.filter_append, hharvest,
    hedges, hreferences, List.nil_append, List.nil_append, List.nil_append]

namespace Rebuilt

variable (hrebuilt : Rebuilt g d l t f) (hfresh : f.IsFresh)

include hrebuilt hfresh

/-- The findings of the assembly are those of the levels, list by list. -/
theorem assembly_diagnostics_eq :
    (ofLevel g.platform (partition g.platform l) .root
        (LevelTable.ofLevels (cleanLevels l.levels))).diagnostics =
      (f.levels Node.id .root).flatMap fun e =>
        levelFindings g.platform (partition g.platform l) e.1
          (attached g.platform (partition g.platform l) (e.2.clean (presentIds l.levels))) := by
  have hlevels := congrArg (List.flatMap fun e : Level × Nested Node =>
    levelFindings g.platform (partition g.platform l) e.1
      (attached g.platform (partition g.platform l) e.2))
    (f.levels_clean (presentIds l.levels) .root)
  rw [List.flatMap_map, Nested.levels, List.flatMap_append, List.flatMap_singleton] at hlevels
  rw [hrebuilt.assembly_diagnostics hfresh, innerFindings_eq]
  exact hlevels

/-- The findings of a sort about branches are those that are read off the levels of the graph,
if this holds for the findings of a single edge. -/
theorem filter_diagnostics_perm (hlifted : Lifted.ofDocument? g d = some l)
    {wanted : Diagnostic → Bool}
    (hwanted : ∀ found, wanted found = true → found.isAboutBranch = true)
    {finding? : Graph → Edge → Option Diagnostic}
    (hedge : ∀ (level : Graph) (e : Edge) (n : Node), e.kind = .control →
      level.node? e.source = some n →
      (edgeFindings e n).filter wanted = (finding? level e).toList) :
    ((assemble g.platform l).2.diagnostics.filter wanted).Perm
      ((assemble g.platform l).1.levels.flatMap fun level =>
        level.edges.filterMap (finding? level)) := by
  have hlevels := hrebuilt.flatMap_levels_perm hfresh
    (φ := fun level => level.edges.filterMap (finding? level)) rfl
  rw [filter_diagnostics_assemble hlifted hwanted, hrebuilt.assembly_diagnostics_eq hfresh,
    List.filter_flatMap]
  refine .trans (.of_eq ?_) hlevels
  apply List.flatMap_congr
  intro e he
  apply filter_levelFindings hedge
  rw [Nested.ids_clean]
  exact hrebuilt.ids e he

end Rebuilt

/-- The findings about branches are exactly those of the control edges that are kept: each edge
on any level that leaves on a handle which is not understood is reported, and each edge on any
level that selects a class past those of the classifier which it leaves there. No other edge is
reported, and none is reported twice. -/
theorem ofDocument_branchFindings {p : Platform} {c : Conversion} (hg : Registry.Derived p g)
    (hapart : d.LoopsApart g) (hc : ofDocument g d = .ok c) :
    (c.report.diagnostics.filter Diagnostic.isUnrecognizedHandle).Perm
        (c.graph.levels.flatMap fun level => level.edges.filterMap Edge.unrecognized?) ∧
      (c.report.diagnostics.filter Diagnostic.isBranchOutOfRange).Perm
        (c.graph.levels.flatMap fun level => level.edges.filterMap level.outOfRange?) := by
  have hbuiltIns := hg.usesBuiltIns
  obtain ⟨resolver, t, f, l, -, -, hdecodes, hlifted, hrebuilt, rfl⟩ :=
    exists_rebuilt_of_loopsApart hbuiltIns hapart hc
  have hfresh := hdecodes.isFresh hbuiltIns
  constructor
  · apply hrebuilt.filter_diagnostics_perm hfresh hlifted
    · intro found hfound
      rw [Diagnostic.isAboutBranch, hfound, Bool.true_or]
    · intro level e n hkind _
      exact filter_isUnrecognizedHandle hkind n
  · apply hrebuilt.filter_diagnostics_perm hfresh hlifted
    · intro found hfound
      rw [Diagnostic.isAboutBranch, hfound, Bool.or_true]
    · intro level e n hkind hn
      exact filter_isBranchOutOfRange hkind hn

theorem ofDocument_branchFindings_strayBranches :
    Registry.Derived .coze (.withDefaults .coze) ∧
      Document.strayBranches.LoopsApart (.withDefaults .coze) ∧
        ∃ c, ofDocument (.withDefaults .coze) Document.strayBranches = .ok c ∧
          List.Perm [.unrecognizedHandle "step-then-pick" "step" "then",
              .unrecognizedHandle "each-then-done" "each" "then"]
            (c.graph.levels.flatMap fun level => level.edges.filterMap Edge.unrecognized?) ∧
          List.Perm [.branchOutOfRange "pick-branch_2-step" "pick" 2 2,
              .branchOutOfRange "sort-branch_4-done" "sort" 4 1]
            (c.graph.levels.flatMap fun level => level.edges.filterMap level.outOfRange?) := by
  have hapart : Document.strayBranches.LoopsApart (.withDefaults .coze) :=
    Document.loopsApart_of_unroll? 6 (by decide +kernel)
  have hresult : (ofDocument (.withDefaults .coze) Document.strayBranches).toOption.map (fun c =>
      (c.report.diagnostics.filter Diagnostic.isUnrecognizedHandle,
        c.report.diagnostics.filter Diagnostic.isBranchOutOfRange)) =
      some ([.unrecognizedHandle "step-then-pick" "step" "then",
          .unrecognizedHandle "each-then-done" "each" "then"],
        [.branchOutOfRange "pick-branch_2-step" "pick" 2 2,
          .branchOutOfRange "sort-branch_4-done" "sort" 4 1]) := by
    decide +kernel
  obtain ⟨c, hfound, hfindings⟩ := Option.map_eq_some_iff.mp hresult
  obtain ⟨hhandles, hbranches⟩ := Prod.mk.inj hfindings
  have hc := eq_ok_of_toOption_eq_some hfound
  have hreported := ofDocument_branchFindings .defaults hapart hc
  rw [hhandles, hbranches] at hreported
  exact ⟨.defaults, hapart, c, hc, hreported⟩

end Conversion

end WorkflowGraph
