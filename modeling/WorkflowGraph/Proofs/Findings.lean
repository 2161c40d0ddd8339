/-
# The findings of a conversion by kind

Each part of a conversion has a kind of findings of its own. Lifting and putting together
report constructs that are not supported, the sorting of the links reports dropped edges,
and the removal of references reports dangling references. So the findings of a kind are
the findings of a part.
-/

import WorkflowGraph.Proofs.Reassembly
import WorkflowGraph.Proofs.Unrolling

namespace WorkflowGraph

/-- Of findings of one kind, a search by kind finds all or none. -/
theorem Diagnostic.filter_kind {ds : List Diagnostic} {kind wanted : DiagnosticKind}
    (hds : ∀ found ∈ ds, found.kind = kind) :
    ds.filter (fun d => d.kind == wanted) = if kind = wanted then ds else [] := by
  split
  next hsame =>
      apply List.filter_eq_self.mpr
      intro found hfound
      rw [hds found hfound, hsame, beq_self_eq_true]
  next hother =>
      apply List.filter_eq_nil_iff.mpr
      intro found hfound
      rw [hds found hfound, beq_iff_eq]
      exact hother

namespace Assembly

variable {p : Platform} {part : EdgePartition}

theorem kind_edgeFindings (e : Edge) (source : Node) :
    ∀ found ∈ edgeFindings e source, found.kind = .unsupportedConstruct := by
  intro found hfound
  unfold edgeFindings at hfound
  split at hfound
  · obtain rfl := List.mem_singleton.mp hfound
    rfl
  · obtain rfl := List.mem_singleton.mp hfound
    rfl
  · cases hfound

section Forall

variable {P : Diagnostic → Prop}

theorem forall_attachBodies {inner : Level → LevelTable → Assembled Graph}
    (hinner : ∀ level t, ∀ found ∈ (inner level t).diagnostics, P found) (ns : List Node) :
    ∀ t, ∀ found ∈ (attachBodies part inner ns t).diagnostics, P found := by
  induction ns with
  | nil => exact fun _ _ hfound => absurd hfound List.not_mem_nil
  | cons n ns ih =>
      intro t
      by_cases hkind : n.kind = .iteration
      · rw [attachBodies_cons_of_iteration _ hkind]
        exact List.forall_mem_append.mpr ⟨hinner _ _, ih _⟩
      · rw [attachBodies_cons_of_ne _ hkind]
        exact ih t

variable (hedge : ∀ e source, ∀ found ∈ edgeFindings e source, P found)

include hedge

theorem forall_within (p : Platform) (part : EdgePartition) (n : Nat) :
    ∀ level t, ∀ found ∈ (within p part n level t).diagnostics, P found := by
  induction n with
  | zero => exact fun _ _ _ hfound => absurd hfound List.not_mem_nil
  | succ n ih =>
      intro level t
      rw [within_succ, close]
      refine List.forall_mem_append.mpr ⟨forall_attachBodies ih _ _, fun found hfound => ?_⟩
      obtain ⟨entry, _, hentry⟩ := List.mem_flatMap.mp hfound
      exact hedge _ _ found hentry

/-- The assembly has no findings but those for single edges. -/
theorem forall_ofLevel (p : Platform) (part : EdgePartition) (level : Level) (t : LevelTable) :
    ∀ found ∈ (ofLevel p part level t).diagnostics, P found :=
  forall_within hedge p part t.length level t

end Forall

/-- The assembly reports handles and branches only. -/
theorem kind_ofLevel (p : Platform) (part : EdgePartition) (level : Level) (t : LevelTable) :
    ∀ found ∈ (ofLevel p part level t).diagnostics, found.kind = .unsupportedConstruct :=
  forall_ofLevel kind_edgeFindings p part level t

end Assembly

namespace Dangling

variable (present : List String)

theorem kind_finding? {node slot : String} {r : Option Reference} {found : Diagnostic}
    (hfound : finding? present node slot r = some found) : found.kind = .danglingReference := by
  obtain ⟨_, _, rfl⟩ := Option.map_eq_some_iff.mp hfound
  rfl

/-- Dangling references are reported as such. -/
theorem kind_nodeFindings (n : Node) :
    ∀ found ∈ nodeFindings present n, found.kind = .danglingReference := by
  refine List.forall_mem_append.mpr ⟨fun found hfound => ?_, fun found hfound => ?_⟩
  · obtain ⟨_, _, hfinding⟩ := List.mem_filterMap.mp hfound
    exact kind_finding? present hfinding
  · unfold configFindings at hfound
    split at hfound
    · obtain ⟨_, _, hcase⟩ := List.mem_flatMap.mp hfound
      obtain ⟨_, _, hfinding⟩ := List.mem_filterMap.mp hcase
      exact kind_finding? present hfinding
    · exact kind_finding? present (Option.mem_toList.mp hfound)
    · rcases List.mem_append.mp hfound with h | h
      · exact kind_finding? present (Option.mem_toList.mp h)
      · exact kind_finding? present (Option.mem_toList.mp h)
    · cases hfound

end Dangling

namespace Conversion

variable {p : Platform} {l : Lifted}

theorem kind_droppedEdges (part : EdgePartition) :
    ∀ found ∈ droppedEdges part, found.kind = .droppedEdge := by
  refine List.forall_mem_append.mpr ⟨fun found hfound => ?_, fun found hfound => ?_⟩
  · obtain ⟨_, _, rfl⟩ := List.mem_map.mp hfound
    rfl
  · obtain ⟨_, _, rfl⟩ := List.mem_map.mp hfound
    rfl

theorem kind_danglingReferences (levels : List (Level × List Node)) :
    ∀ found ∈ danglingReferences levels, found.kind = .danglingReference := by
  intro found hfound
  obtain ⟨level, _, hlevel⟩ := List.mem_flatMap.mp hfound
  obtain ⟨n, _, hnode⟩ := List.mem_flatMap.mp hlevel
  exact Dangling.kind_nodeFindings _ n found hnode

theorem diagnostics_assemble (p : Platform) (l : Lifted) :
    (assemble p l).2.diagnostics = l.harvest.report.diagnostics ++
      (droppedEdges (partition p l) ++ danglingReferences l.levels ++
        (Assembly.ofLevel p (partition p l) .root
          (LevelTable.ofLevels (cleanLevels l.levels))).diagnostics) :=
  rfl

/-- The findings about dangling references are those of the removal. -/
theorem ofKind_danglingReference (hreport : l.harvest.OnlyUnsupported) :
    (assemble p l).2.ofKind .danglingReference = danglingReferences l.levels := by
  rw [Report.ofKind, diagnostics_assemble, List.filter_append, List.filter_append,
    List.filter_append, Diagnostic.filter_kind hreport,
    Diagnostic.filter_kind (kind_droppedEdges _),
    Diagnostic.filter_kind (kind_danglingReferences _),
    Diagnostic.filter_kind (Assembly.kind_ofLevel p _ _ _)]
  simp

end Conversion

end WorkflowGraph
