/-
# The violations that the check of a graph reports

The check stops at the first violation it meets. A graph passes exactly if each of its
levels keeps the rules, in whatever order they are looked at, and the ids in a reported
error name a rule that some level breaks.
-/

import WorkflowGraph.Proofs.Walk
import WorkflowGraph.Proofs.WellFormed

namespace WorkflowGraph.Graph

/-- The rules of a level: its own and those of its nodes, apart from what is inside the
bodies. -/
structure KeepsLevelRules (g : Graph) : Prop where
  level : LevelRules g.nodes g.edges
  nodes : ∀ n ∈ g.nodes, NodeRules n

/-- A rule that a level breaks, with the ids that say where. -/
inductive Breaks (level : Graph) : StructuralError → Prop
  | duplicateNodeId {id : String} : 2 ≤ (level.nodes.map Node.id).count id →
      Breaks level (.duplicateNodeId id)
  | misplacedEntryEdge {e : Edge} : e ∈ level.edges → e.kind ≠ .control →
      Breaks level (.misplacedEntryEdge e.id)
  | edgeEndpointMissing {e : Edge} {id : String} : e ∈ level.edges →
      id = e.source ∨ id = e.target → id ∉ level.nodes.map Node.id →
        Breaks level (.edgeEndpointMissing e.id id)
  | configMismatch {n : Node} : n ∈ level.nodes → n.config.kind ≠ n.kind →
      Breaks level (.configMismatch n.id n.kind n.config.kind)
  | duplicateOutput {n : Node} {name : String} : n ∈ level.nodes →
      2 ≤ (n.outputs.map Output.name).count name → Breaks level (.duplicateOutput n.id name)
  | invalidEntryEdge {n : Node} {loop : Loop} {e : Edge} : n ∈ level.nodes →
      n.config = .iteration loop → e ∈ loop.entryEdges →
        ¬ (e.kind = .iterationStart ∧ e.source = n.id ∧
          e.target ∈ loop.body.nodes.map Node.id) →
        Breaks level (.invalidEntryEdge n.id e.id)

/-- A level that breaks a rule does not keep the rules. -/
theorem Breaks.not_keepsLevelRules {level : Graph} {e : StructuralError}
    (hbreaks : level.Breaks e) : ¬ level.KeepsLevelRules := by
  intro hrules
  cases hbreaks with
  | duplicateNodeId htwice =>
      have hone := List.nodup_iff_count.mp hrules.level.ids
      exact absurd (hone _) (Nat.not_le_of_lt htwice)
  | misplacedEntryEdge he hkind => exact hkind (hrules.level.edges _ he).1
  | edgeEndpointMissing he hend hmissing =>
      obtain ⟨-, hsource, htarget⟩ := hrules.level.edges _ he
      rcases hend with rfl | rfl
      · exact hmissing hsource
      · exact hmissing htarget
  | configMismatch hn hkind => exact hkind (hrules.nodes _ hn).config
  | duplicateOutput hn htwice =>
      have hone := List.nodup_iff_count.mp (hrules.nodes _ hn).outputs
      exact absurd (hone _) (Nat.not_le_of_lt htwice)
  | invalidEntryEdge hn hloop he hinvalid =>
      exact hinvalid ((hrules.nodes _ hn).entries _ hloop _ he)

/-- The text that is found to be repeated stands among the earlier ones or twice in the
list. -/
theorem of_firstRepeated?_eq_some {names : List String} {s : String} :
    ∀ {seen : List String}, firstRepeated? seen names = some s →
      s ∈ names ∧ (s ∈ seen ∨ 2 ≤ names.count s) := by
  induction names with
  | nil => nofun
  | cons name rest ih =>
      intro seen hrepeated
      unfold firstRepeated? at hrepeated
      split at hrepeated
      next hseen =>
          obtain rfl := Option.some.inj hrepeated
          exact ⟨List.mem_cons_self, Or.inl (by simpa using hseen)⟩
      next =>
          obtain ⟨hmem, hearlier⟩ := ih hrepeated
          refine ⟨List.mem_cons_of_mem _ hmem, ?_⟩
          rw [List.mem_cons] at hearlier
          rcases hearlier with (rfl | hseen) | htwice
          · have hagain := List.count_pos_iff.mpr hmem
            rw [List.count_cons_self]
            exact Or.inr (by omega)
          · exact Or.inl hseen
          · exact Or.inr (Nat.le_trans htwice (List.count_le_count_cons))

theorem two_le_count_of_firstRepeated? {names : List String} {s : String}
    (hrepeated : firstRepeated? [] names = some s) : 2 ≤ names.count s :=
  (of_firstRepeated?_eq_some hrepeated).2.resolve_left List.not_mem_nil

theorem breaks_of_edgeError? {level : Graph} {e : Edge} (he : e ∈ level.edges)
    {found : StructuralError}
    (herror : edgeError? (level.nodes.map Node.id) e = some found) : level.Breaks found := by
  unfold edgeError? at herror
  split at herror
  next hkind =>
      obtain rfl := Option.some.inj herror
      exact .misplacedEntryEdge he hkind
  next =>
      split at herror
      next hsource =>
          obtain rfl := Option.some.inj herror
          exact .edgeEndpointMissing he (Or.inl rfl) (by simpa using hsource)
      next =>
          split at herror
          next htarget =>
              obtain rfl := Option.some.inj herror
              exact .edgeEndpointMissing he (Or.inr rfl) (by simpa using htarget)
          next => cases herror

theorem breaks_of_levelError? {level : Graph} {found : StructuralError}
    (herror : levelError? level.nodes level.edges = some found) : level.Breaks found := by
  unfold levelError? at herror
  dsimp only at herror
  split at herror
  next id hrepeated =>
      obtain rfl := Option.some.inj herror
      exact .duplicateNodeId (two_le_count_of_firstRepeated? hrepeated)
  next =>
      obtain ⟨e, he, hedge⟩ := List.exists_of_findSome?_eq_some herror
      exact breaks_of_edgeError? he hedge

theorem breaks_of_nodeError? {level : Graph} {n : Node} (hn : n ∈ level.nodes)
    {found : StructuralError} (herror : nodeError? n = some found) : level.Breaks found := by
  unfold nodeError? at herror
  split at herror
  next hkind =>
      obtain rfl := Option.some.inj herror
      exact .configMismatch hn hkind
  next =>
      split at herror
      next name hrepeated =>
          obtain rfl := Option.some.inj herror
          exact .duplicateOutput hn (two_le_count_of_firstRepeated? hrepeated)
      next =>
          split at herror
          next => cases herror
          next loop hloop =>
              obtain ⟨e, hfound, rfl⟩ := Option.map_eq_some_iff.mp herror
              refine .invalidEntryEdge hn (Node.config_eq_of_loop? hloop)
                (List.mem_of_find?_eq_some hfound) ?_
              have hentry := List.find?_some hfound
              rw [← isEntryOf_iff]
              simpa using hentry

mutual

/-- An error of the check is a rule that some level breaks. -/
theorem exists_breaks : (g : Graph) → ∀ e, g.validate = .error e →
    ∃ level, g.HasLevel level ∧ level.Breaks e
  | ⟨nodes, edges⟩ => by
      intro e herror
      rw [validate] at herror
      split at herror
      next found hlevel =>
          obtain rfl := Except.error.inj herror
          exact ⟨_, .self, breaks_of_levelError? hlevel⟩
      next =>
          obtain ⟨n, hn, hnode | ⟨loop, level, hloop, hlevel, hbreaks⟩⟩ :=
            exists_breaks_nodes nodes e herror
          · exact ⟨_, .self, breaks_of_nodeError? hn hnode⟩
          · exact ⟨level, .body hn hloop hlevel, hbreaks⟩

/-- An error of the check of a list is that of one of its nodes or of the body of one. -/
theorem exists_breaks_nodes : (ns : List Node) → ∀ e, validateNodes ns = .error e →
      ∃ n ∈ ns, nodeError? n = some e ∨ ∃ loop level, n.config = .iteration loop ∧
        loop.body.HasLevel level ∧ level.Breaks e
  | [] => nofun
  | ⟨id, kind, title, config, inputs, outputs, presentation⟩ :: ns => by
      intro e herror
      rw [validateNodes] at herror
      split at herror
      next found hnode =>
          obtain rfl := Except.error.inj herror
          exact ⟨_, List.mem_cons_self, Or.inl hnode⟩
      next =>
          split at herror
          next found hbody =>
              obtain rfl := Except.error.inj herror
              exact ⟨_, List.mem_cons_self, Or.inr (exists_breaks_body config _ hbody)⟩
          next =>
              obtain ⟨n, hn, hfound⟩ := exists_breaks_nodes ns e herror
              exact ⟨n, List.mem_cons_of_mem _ hn, hfound⟩

/-- An error of the check of a body is a rule that some level of the body breaks. -/
theorem exists_breaks_body : (config : Config) → ∀ e, validateBody config = .error e →
      ∃ loop level, config = .iteration loop ∧ loop.body.HasLevel level ∧ level.Breaks e
  | .iteration ⟨_, _, _, _, _, body⟩ => by
      intro e herror
      rw [validateBody] at herror
      obtain ⟨level, hlevel, hbreaks⟩ := exists_breaks body e herror
      exact ⟨_, level, rfl, hlevel, hbreaks⟩
  | .start | .finish _ | .llm _ | .code _ | .condition _ | .classifier _ => by
      intro e herror
      simp [validateBody] at herror

end

/-- A graph that keeps the rules keeps them on each of its levels. -/
theorem KeepsRules.keepsLevelRules {g level : Graph} (hlevel : g.HasLevel level) :
    g.KeepsRules → level.KeepsLevelRules := by
  induction hlevel with
  | self =>
      intro hrules
      exact ⟨hrules.level, fun n hn => (hrules.nodes n (mem_walk_of_mem hn)).node⟩
  | body hn hloop _ ih =>
      intro hrules
      refine ih ⟨(hrules.nodes _ (mem_walk_of_mem hn)).body _ hloop, fun m hm => ?_⟩
      exact hrules.nodes m (walk_body_subset_walk hn hloop hm)

/-- The check decides the rules: it passes exactly the graphs that keep them on every
level, and the error it reports otherwise names a rule that some level breaks. -/
theorem validate_decides (g : Graph) :
    (g.validate = .ok () ↔ ∀ level, g.HasLevel level → level.KeepsLevelRules) ∧
      ∀ e, g.validate = .error e → ∃ level, g.HasLevel level ∧ level.Breaks e := by
  refine ⟨⟨fun hok level hlevel => ?_, fun hall => ?_⟩, exists_breaks g⟩
  · exact KeepsRules.keepsLevelRules hlevel ((validate_eq_ok_iff g).mp hok)
  · cases hresult : g.validate with
    | ok u => rfl
    | error e =>
        obtain ⟨level, hlevel, hbreaks⟩ := exists_breaks g e hresult
        exact absurd (hall level hlevel) hbreaks.not_keepsLevelRules

/-- Two iterations inside one another, around a node that declares one output twice. -/
def nestedDuplicate : Graph :=
  ⟨[.ofConfig "outer" "outer" (.iteration { Loop.default with
      body := ⟨[.ofConfig "inner" "inner" (.iteration { Loop.default with
        entryEdges := [{ Edge.plain "first" "inner" "step" with kind := .iterationStart }]
        body := ⟨[{ Node.ofConfig "step" "step" (.code ⟨.python3, ""⟩) with
          outputs := [⟨"x", .string⟩, ⟨"x", .any⟩] }], []⟩ })], []⟩ })], []⟩

theorem validate_decides_nestedDuplicate :
    nestedDuplicate.validate = .error (.duplicateOutput "step" "x") ∧
      (¬ ∀ level, nestedDuplicate.HasLevel level → level.KeepsLevelRules) ∧
        ∃ level, nestedDuplicate.HasLevel level ∧
          level.Breaks (.duplicateOutput "step" "x") := by
  have herror : nestedDuplicate.validate = .error (.duplicateOutput "step" "x") := rfl
  refine ⟨herror, fun hall => ?_, (validate_decides nestedDuplicate).2 _ herror⟩
  cases herror.symm.trans ((validate_decides nestedDuplicate).1.mpr hall)

end WorkflowGraph.Graph
