/-
# The one structural error of a conversion

The check of graphs knows six violations, but a converted document can only have one of
them: two nodes of one list that share an id. The decoders see to the settings and the
outputs, and the links that are sorted to a level end in the list of that level. A list
that repeats an id may be put together wrongly, since its loops then compete for one
body, but the check looks at the ids of a level before anything else.
-/

import WorkflowGraph.Proofs.AssemblyRules
import WorkflowGraph.Proofs.DepthBound
import WorkflowGraph.Proofs.KeptEdges
import WorkflowGraph.Proofs.Violations

namespace WorkflowGraph

namespace Graph

theorem validate_empty : Graph.empty.validate = .ok () := by
  simp [Graph.empty, validate, levelError?, firstRepeated?, validateNodes]

theorem validateBody_iteration (loop : Loop) :
    validateBody (.iteration loop) = loop.body.validate := by
  cases loop
  rw [validateBody]

theorem validateBody_of_ne {config : Config} (hconfig : config.kind ≠ .iteration) :
    validateBody config = .ok () := by
  cases config with
  | iteration loop => exact absurd rfl hconfig
  | _ => simp only [validateBody]

/-- An error behind a node that keeps the rules of a node comes from its body, or the
body passes and it comes from a later node. -/
theorem error_of_validateNodes_cons {n : Node} {ns : List Node} (hn : NodeRules n)
    {e : StructuralError} (herror : validateNodes (n :: ns) = .error e) :
    validateBody n.config = .error e ∨
      validateBody n.config = .ok () ∧ validateNodes ns = .error e := by
  cases n
  rw [validateNodes, (nodeError?_eq_none_iff _).mpr hn] at herror
  dsimp only at herror ⊢
  split at herror
  next found hbody =>
      obtain rfl := Except.error.inj herror
      exact Or.inl hbody
  next hbody => exact Or.inr ⟨hbody, herror⟩

/-- An error of a level whose edges join its nodes is an id that two of its nodes share,
or comes from its nodes, whose ids differ then. -/
theorem error_of_validate {nodes : List Node} {edges : List Edge}
    (hedges : ∀ e ∈ edges, e.kind = .control ∧ e.source ∈ nodes.map Node.id ∧
      e.target ∈ nodes.map Node.id)
    {e : StructuralError} (herror : validate ⟨nodes, edges⟩ = .error e) :
    (∃ id, e = .duplicateNodeId id ∧ 2 ≤ (nodes.map Node.id).count id) ∨
      (nodes.map Node.id).Nodup ∧ validateNodes nodes = .error e := by
  rw [validate] at herror
  split at herror
  next found hlevel =>
      obtain rfl := Except.error.inj herror
      unfold levelError? at hlevel
      dsimp only at hlevel
      split at hlevel
      next id hrepeated =>
          obtain rfl := Option.some.inj hlevel
          exact Or.inl ⟨id, rfl, two_le_count_of_firstRepeated? hrepeated⟩
      next =>
          obtain ⟨edge, hedge, hfound⟩ := List.exists_of_findSome?_eq_some hlevel
          rw [(edgeError?_eq_none_iff _ _).mpr (hedges edge hedge)] at hfound
          cases hfound
  next hlevel => exact Or.inr ⟨((levelError?_eq_none_iff _ _).mp hlevel).ids, herror⟩

end Graph

namespace Nested

/-- The error that an id stands twice in one of the lists of a nesting. -/
def RepeatsId (f : Nested Node) (e : StructuralError) : Prop :=
  ∃ id, e = .duplicateNodeId id ∧ ∃ list ∈ f.levels Node.id .root, 2 ≤ list.2.ids.count id

end Nested

namespace Assembly

open WorkflowGraph.Graph

variable {p : Platform} {part : EdgePartition}

/-- A list with a level to itself is the only list of that level. -/
theorem eq_of_level_eq {f : Nested Node} {list other : Level × Nested Node}
    (hlist : list ∈ f.levels Node.id .root) (hother : other ∈ f.levels Node.id .root)
    (hone : ((f.levels Node.id .root).map Prod.fst).count list.1 = 1)
    (hlevel : other.1 = list.1) : other = list := by
  have hfound := lookup_of_count_eq_one hlist hone
  have hagain := lookup_of_count_eq_one hother (hlevel ▸ hone)
  rw [hlevel, hfound] at hagain
  exact Prod.ext hlevel (Option.some.inj hagain).symm

/-- An error of a list that is put together on a level of its own is an id that it
repeats, or comes from its nodes. -/
theorem error_of_close {f : Nested Node} (harrives : Arrives part f)
    {list : Level × Nested Node} (hlist : list ∈ f.levels Node.id .root)
    (hone : ((f.levels Node.id .root).map Prod.fst).count list.1 = 1) {t : LevelTable}
    {e : StructuralError}
    (herror : (close p part list.1
      (attachBodies part (ofLevel p part) list.2.roots t)).value.validate = .error e) :
    f.RepeatsId e ∨ list.2.ids.Nodup ∧
      validateNodes (attachBodies part (ofLevel p part) list.2.roots t).value = .error e := by
  have hids : (attachBodies part (ofLevel p part) list.2.roots t).value.map Node.id =
      list.2.ids := ids_attachBodies part _ _ t
  have hjoin := @edges_join p part list.1
    (attachBodies part (ofLevel p part) list.2.roots t).value fun l hl _ => by
      obtain ⟨other, hother, hlevel, htarget⟩ := harrives.internal list.1 l hl
      obtain rfl := eq_of_level_eq hlist hother hone hlevel
      rwa [hids]
  rw [← hids]
  rcases error_of_validate hjoin herror with ⟨id, rfl, htwice⟩ | hnodes
  · exact Or.inl ⟨id, rfl, list, hlist, hids ▸ htwice⟩
  · exact Or.inr hnodes

/-! What the nodes of a list report is reported by one of them or by those after it. -/

section Reporting

variable {f inner rest : Nested Node} {n : Node} {t : LevelTable} {e : StructuralError}

theorem error_after_plain (hn : n.IsFresh) (hkind : n.kind ≠ .iteration)
    (herror : validateNodes
      (attachBodies part (ofLevel p part) (Nested.leaf n rest).roots t).value = .error e) :
    validateNodes (attachBodies part (ofLevel p part) rest.roots t).value = .error e := by
  rw [Nested.roots, attachBodies_cons_of_ne _ hkind] at herror
  rcases error_of_validateNodes_cons (nodeRules_of_ne hn hkind) herror with hbody | ⟨-, hrest⟩
  · rw [validateBody_of_ne (hn.config ▸ hkind)] at hbody
    cases hbody
  · exact hrest

/-- No list lies on the level of an iteration node without a body, so no entry edge starts
from it. -/
theorem error_after_bare (harrives : Arrives part f) (hn : n.IsFresh)
    (hkind : n.kind = .iteration) (hbare : .body n.id ∉ (f.levels Node.id .root).map Prod.fst)
    (hnone : t.nodes (.body n.id) = []) (hsame : t.without (.body n.id) = t)
    (herror : validateNodes
      (attachBodies part (ofLevel p part) (Nested.leaf n rest).roots t).value = .error e) :
    validateNodes (attachBodies part (ofLevel p part) rest.roots t).value = .error e := by
  rw [Nested.roots, attachBodies_cons_of_iteration _ hkind, ofLevel_eq, hnone, hsame,
    attachBodies, close_nil] at herror
  have hrules : NodeRules (n.withBody part .empty) :=
    nodeRules_withBody hn hkind fun edge hedge => by
      obtain ⟨-, -, other, hother, hlevel, -⟩ := harrives.entries n.id edge hedge
      exact absurd (hlevel ▸ List.mem_map_of_mem hother) hbare
  rcases error_of_validateNodes_cons hrules herror with hbody | ⟨-, hrest⟩
  · obtain ⟨loop, hconfig, hinside, -⟩ := hn.withBody_config hkind part .empty
    rw [hconfig, validateBody_iteration, hinside, validate_empty] at hbody
    cases hbody
  · exact hrest

/-- The body of a loop, put together from what is left of a table. -/
def bodyOf (p : Platform) (part : EdgePartition) (t : LevelTable) (n : Node)
    (inner : Nested Node) : Assembled Graph :=
  close p part (.body n.id)
    (attachBodies part (ofLevel p part) inner.roots (t.without (.body n.id)))

theorem error_of_loop (harrives : Arrives part f)
    (hlisted : (.body n.id, inner) ∈ f.levels Node.id .root)
    (hone : ((f.levels Node.id .root).map Prod.fst).count (.body n.id) = 1) (hn : n.IsFresh)
    (hkind : n.kind = .iteration) (hfound : t.nodes (.body n.id) = inner.roots)
    (herror : validateNodes
      (attachBodies part (ofLevel p part) (Nested.loop n inner rest).roots t).value =
        .error e) :
    (bodyOf p part t n inner).value.validate = .error e ∨
      (bodyOf p part t n inner).value.validate = .ok () ∧
        validateNodes (attachBodies part (ofLevel p part) rest.roots
          (bodyOf p part t n inner).rest).value = .error e := by
  rw [Nested.roots, attachBodies_cons_of_iteration _ hkind, ofLevel_eq, hfound] at herror
  have hrules : NodeRules (n.withBody part (bodyOf p part t n inner).value) :=
    nodeRules_withBody hn hkind fun edge hedge => by
      obtain ⟨hentry, hsource, other, hother, hlevel, htarget⟩ :=
        harrives.entries n.id edge hedge
      obtain rfl := eq_of_level_eq hlisted hother hone hlevel
      refine ⟨hentry, hsource, ?_⟩
      rw [bodyOf, close, ids_attachBodies]
      exact htarget
  obtain ⟨loop, hconfig, hinside, -⟩ :=
    hn.withBody_config hkind part (bodyOf p part t n inner).value
  have hcases := error_of_validateNodes_cons hrules herror
  rwa [hconfig, validateBody_iteration, hinside] at hcases

/-- A body that passes its check repeats no id, and neither do the bodies within it. -/
theorem keepsIds_of_validate (hok : (bodyOf p part t n inner).value.validate = .ok ()) :
    inner.ids.Nodup ∧ KeepsIds p part (t.without (.body n.id)) inner := by
  rw [bodyOf, validate_eq_ok_iff] at hok
  refine ⟨?_, Or.inr fun m hm loop hloop =>
    ((hok.nodes m (by rw [walk_eq]; exact hm)).body loop hloop).ids⟩
  rw [Nested.ids, ← ids_attachBodies part (ofLevel p part) inner.roots]
  exact hok.level.ids

end Reporting

/-- The nodes of a list report nothing but ids that are repeated in the lists inside. The
induction follows the assembly, and the check follows it too: a body that passes the check
repeats no id, so the loops inside it took the levels that are theirs, and the table serves
the nodes after it as it should. -/
theorem repeatsId_of_validateNodes {f g : Nested Node} (hapart : f.LoopsApart)
    (harrives : Arrives part f) (hfresh : g.IsFresh) {e : StructuralError} :
    ∀ t, (g.bodies Node.id).Sublist (f.levels Node.id .root) →
      g.OwnsLevels ((f.levels Node.id .root).map Prod.fst) →
        Stores ((f.levels Node.id .root).map Prod.fst) t g →
          validateNodes (attachBodies part (ofLevel p part) g.roots t).value = .error e →
            f.RepeatsId e := by
  induction hfresh with
  | nil =>
      intro t _ _ _ herror
      simp [Nested.roots, attachBodies, validateNodes] at herror
  | @leaf n rest hn _ ih =>
      intro t hsub howns hstores herror
      obtain ⟨hbare, hownsRest⟩ := howns
      refine ih t hsub hownsRest ⟨hstores.found, hstores.absent⟩ ?_
      by_cases hkind : n.kind = .iteration
      · obtain ⟨hnone, hsame⟩ := hstores.nodes_bare (hbare hkind)
        exact error_after_bare harrives hn hkind (hbare hkind) hnone hsame herror
      · exact error_after_plain hn hkind herror
  | @loop n inner rest hn hkind hfreshInner _ ihInner ihRest =>
      intro t hsub howns hstores herror
      obtain ⟨hone, hownsRest⟩ := howns
      have hlisted := hsub.subset (Nested.mem_bodies_loop Node.id n inner rest)
      have hsubInner := (Nested.bodies_inner_sublist Node.id n inner rest).trans hsub
      have hsubRest := (Nested.bodies_rest_sublist Node.id n inner rest).trans hsub
      rcases error_of_loop harrives hlisted hone hn hkind (hstores.nodes_loop hone) herror with
        hhere | ⟨hok, hlater⟩
      · rcases error_of_close harrives hlisted hone hhere with hrepeats | ⟨hnodup, hnodes⟩
        · exact hrepeats
        · exact ihInner _ hsubInner (hapart.ownsLevels hlisted hone hnodup)
            (hstores.inner hsub) hnodes
      · -- The body passed the check, so its loops have taken their own levels only.
        obtain ⟨hnodup, hkeeps⟩ := keepsIds_of_validate hok
        have hnamed := named_of_loopsApart hapart hfreshInner _ hsubInner
          (hapart.ownsLevels hlisted hone hnodup) (hstores.inner hsub) hkeeps
        rw [bodyOf, close, hnamed.serves.attachBodies_eq] at hlater
        exact ihRest _ hsubRest hownsRest (hstores.rest hsub hnamed.asked) hlater

/-- A nesting that is put together from the table of its levels reports nothing but ids
that its lists repeat. -/
theorem repeatsId_of_validate {f : Nested Node} (hapart : f.LoopsApart) (hfresh : f.IsFresh)
    (harrives : Arrives part f) {e : StructuralError}
    (herror : (ofLevel p part .root (tableOf f)).value.validate = .error e) :
    f.RepeatsId e := by
  have hmem : (.root, f) ∈ f.levels Node.id .root :=
    List.mem_append_right _ (List.mem_singleton_self _)
  have hone := f.count_root_levels_root Node.id
  rw [ofLevel_eq, nodes_tableOf_root] at herror
  rcases error_of_close harrives hmem hone herror with hrepeats | ⟨hnodup, hnodes⟩
  · exact hrepeats
  · exact repeatsId_of_validateNodes hapart harrives hfresh _ (List.sublist_append_left _ _)
      (hapart.ownsLevels hmem hone hnodup) (stores_tableOf f) hnodes

end Assembly

namespace Lift

variable {g : Registry} {d : Document} {resolver : Resolver} {level : Level}
  {t : Nested Record} {f : Nested Node}

/-- Each lifted list of a document has become a list of its nesting. -/
theorem Decodes.exists_of_lists (hg : g.UsesBuiltIns) (hunrolls : d.Unrolls g d.records t)
    (hdecodes : Decodes g resolver .root t f) {rs : List Record} (hlist : d.Lists g level rs) :
    ∃ e ∈ f.levels Node.id .root, e.2.ids = (g.survivors level rs).map Record.id := by
  obtain ⟨u, body, hbody, hu, hdec⟩ := hdecodes.exists_decodes_of_lists hg hunrolls hlist
  exact ⟨_, hbody, hu.roots_eq ▸ hdec.ids_eq hg⟩

end Lift

namespace Document

/-- A loop with two blocks of one id in its body, next to records that leave nothing or
little: an unknown tag, parameters of the wrong kind, an output that is declared twice,
and links from and to nowhere. -/
def twoSteps : Document :=
  ⟨[.bare "begin" "1", .bare "odd" "unknown",
    { Record.bare "ask" "3" with
      params := [("model", .bool true)]
      outputs := [⟨"reply", some "string"⟩, ⟨"reply", none⟩] },
    { Record.bare "each" "21" with
      blocks := some ⟨[.bare "step" "5", .bare "step" "5"],
        [⟨"", "step", none, "gone", none⟩]⟩ }],
   [⟨"", "begin", none, "each", none⟩, ⟨"", "gone", none, "odd", none⟩], ∅⟩

end Document

namespace Conversion

open Assembly Document

variable {p : Platform} {g : Registry} {d : Document}

/-- A conversion of a document that passes its check and can be lifted fails only at the
check of graphs. -/
theorem ofDocument_eq_error_iff (hcheck : d.check = .ok ()) {l : Lifted}
    (hlifted : Lifted.ofDocument? g d = some l) {e : ConvertError} :
    ofDocument g d = .error e ↔
      ∃ error, e = .structural error ∧ (assemble g.platform l).1.validate = .error error := by
  simp only [ofDocument, hcheck, hlifted]
  cases hvalid : (assemble g.platform l).1.validate with
  | error error => simp [eq_comm]
  | ok u => simp

/-- A document whose loops are apart fails to convert exactly if two records of one
lifted list share an id and both survive, and it is such an id that the error names. -/
theorem ofDocument_fails_iff (hg : Registry.Derived p g) (hcheck : d.check = .ok ())
    (hacyclic : d.SectionsAcyclic g) (hapart : d.LoopsApart g) :
    ((∃ e, ofDocument g d = .error e) ↔
      ∃ level rs, d.Lists g level rs ∧ ¬ ((g.survivors level rs).map Record.id).Nodup) ∧
    ∀ e, ofDocument g d = .error e →
      ∃ id, e = .structural (.duplicateNodeId id) ∧ ∃ level rs, d.Lists g level rs ∧
        2 ≤ ((g.survivors level rs).map Record.id).count id := by
  have hbuiltIns := hg.usesBuiltIns
  obtain ⟨l, hlifted⟩ := Lifted.exists_ofDocument? hbuiltIns hacyclic
  obtain ⟨resolver, t, f, hunrolls, hdecodes, hmirrors⟩ :=
    Lifted.ofDocument?_mirrors hbuiltIns hlifted
  have hcause : ∀ e, ofDocument g d = .error e →
      ∃ id, e = .structural (.duplicateNodeId id) ∧ ∃ level rs, d.Lists g level rs ∧
        2 ≤ ((g.survivors level rs).map Record.id).count id := by
    intro e herror
    obtain ⟨error, rfl, hinvalid⟩ := (ofDocument_eq_error_iff hcheck hlifted).mp herror
    have hclean : (f.clean (presentIds l.levels)).LoopsApart := by
      simpa only [Nested.LoopsApart, Nested.forall_levels_clean, Nested.iterationIds_clean]
        using hdecodes.loopsApart hbuiltIns hapart hunrolls
    rw [assemble_fst_eq _ hmirrors] at hinvalid
    obtain ⟨id, rfl, list, hlist, htwice⟩ := repeatsId_of_validate hclean
      ((hdecodes.isFresh hbuiltIns).clean _) (arrives_clean hmirrors _) hinvalid
    rw [Nested.levels_clean] at hlist
    obtain ⟨own, hown, rfl⟩ := List.mem_map.mp hlist
    obtain ⟨rs, u, hlists, hu, hdec⟩ := hdecodes.comesFrom hbuiltIns hunrolls own hown
    rw [Nested.ids_clean, hdec.ids_eq hbuiltIns, hu.roots_eq] at htwice
    exact ⟨id, rfl, own.1, rs, hlists, htwice⟩
  refine ⟨⟨?_, ?_⟩, hcause⟩
  · rintro ⟨e, herror⟩
    obtain ⟨id, -, level, rs, hlists, htwice⟩ := hcause e herror
    refine ⟨level, rs, hlists, fun hnodup => ?_⟩
    exact absurd (List.nodup_iff_count.mp hnodup id) (Nat.not_le_of_lt htwice)
  · rintro ⟨level, rs, hlists, hrepeats⟩
    cases hresult : ofDocument g d with
    | error e => exact ⟨e, rfl⟩
    | ok c =>
        -- A conversion that succeeds has no list that repeats an id.
        obtain ⟨-, other, hother, hvalid, -⟩ := ofDocument_eq_ok_iff.mp hresult
        obtain rfl := Option.some.inj (hlifted.symm.trans hother)
        have hrebuilt := rebuilt_of_loopsApart hbuiltIns hapart hunrolls hdecodes hmirrors
          (Or.inr hvalid)
        obtain ⟨list, hlist, hids⟩ := hdecodes.exists_of_lists hbuiltIns hunrolls hlists
        exact absurd (hids ▸ hrebuilt.ids list hlist) hrepeats

theorem ofDocument_fails_iff_twoSteps :
    Registry.Derived .coze (.withDefaults .coze) ∧ twoSteps.check = .ok () ∧
      twoSteps.SectionsAcyclic (.withDefaults .coze) ∧
        twoSteps.LoopsApart (.withDefaults .coze) ∧
          ∃ id, ofDocument (.withDefaults .coze) twoSteps =
            .error (.structural (.duplicateNodeId id)) := by
  have hcheck : twoSteps.check = .ok () := by decide +kernel
  have hacyclic := twoSteps.sectionsAcyclic_of_eq_nil (g := .withDefaults .coze) rfl
  have hapart : twoSteps.LoopsApart (.withDefaults .coze) :=
    loopsApart_of_unroll? 8 (by decide +kernel)
  have hopen : twoSteps.opened? (.withDefaults .coze) twoSteps.records[3] =
      some ⟨[.bare "step" "5", .bare "step" "5"], [⟨"", "step", none, "gone", none⟩]⟩ := rfl
  have hbody := Lists.body .root (List.getElem_mem _) hopen
  obtain ⟨hfails, hcause⟩ := ofDocument_fails_iff .defaults hcheck hacyclic hapart
  obtain ⟨e, herror⟩ := hfails.mpr ⟨_, _, hbody, by decide +kernel⟩
  obtain ⟨id, rfl, -⟩ := hcause e herror
  exact ⟨.defaults, hcheck, hacyclic, hapart, id, herror⟩

end Conversion

end WorkflowGraph
