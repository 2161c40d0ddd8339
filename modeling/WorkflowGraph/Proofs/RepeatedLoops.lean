/-
# Loops that repeat an id

Each body of a graph is its own id namespace, so an id may return on another level. The
conversion keeps to this as long as the id is not that of a loop: bodies are stored and
found by the id of their loop alone. A document whose lists repeat no id is converted to
the direct recursion exactly if the loops of each id leave one another undisturbed.
-/

import WorkflowGraph.Proofs.DepthBound
import WorkflowGraph.Proofs.KeptEdges
import WorkflowGraph.Proofs.SharedNames

namespace WorkflowGraph

namespace Nested

theorem mem_loopsNamed_iff {f : Nested Node} {x : String} {list : List Node} :
    list ∈ f.loopsNamed x ↔ (x, list) ∈ f.loops := by
  simp [loopsNamed]

/-- A list of a nesting is the outermost one, or it is stored for the id of its loop. -/
theorem root_or_storedNamed {f : Nested Node} {e : Level × Nested Node}
    (he : e ∈ f.levels Node.id .root) :
    e = (.root, f) ∨ ∃ x, e.1 = .body x ∧ e.2.roots ∈ f.storedNamed x := by
  rcases List.mem_append.mp he with hin | hroot
  · obtain ⟨level, list⟩ := e
    cases level with
    | root => exact absurd (List.mem_map_of_mem hin) (f.root_not_mem_bodies Node.id)
    | body x =>
        refine Or.inr ⟨x, rfl, List.mem_map.mpr ⟨(.body x, list), ?_, rfl⟩⟩
        exact List.mem_filter.mpr ⟨hin, by simp⟩
  · exact Or.inl (List.mem_singleton.mp hroot)

end Nested

namespace Assembly

open WorkflowGraph.Graph

/-- Of the lists that are asked for in turn, at most one is not empty. -/
theorem InTurn.eq_of_ne_nil {α : Type} {stored : List α} {lists : List (List α)}
    (hturn : InTurn Eq stored lists) {a b : List α} (ha : a ∈ lists) (hb : b ∈ lists)
    (hsomeA : a ≠ []) (hsomeB : b ≠ []) : a = b := by
  cases lists with
  | nil => cases ha
  | cons first others =>
      have hfirst : ∀ list ∈ first :: others, list ≠ [] → list = first := by
        intro list hlist hsome
        rcases List.mem_cons.mp hlist with rfl | hlater
        · rfl
        · exact absurd (hturn.2 list hlater).symm hsome
      rw [hfirst a ha hsomeA, hfirst b hb hsomeB]

variable {p : Platform} {part : EdgePartition} {f : Nested Node}

/-- A loop that shares its id with no other is served. -/
theorem inTurn_of_length_le (hfresh : f.IsFresh) {x : String}
    (hsingle : (f.loopsNamed x).length ≤ 1) : InTurn Eq (f.lastNamed x) (f.loopsNamed x) := by
  match hlists : f.loopsNamed x, hsingle with
  | [], _ => trivial
  | [only], _ =>
      refine ⟨?_, nofun⟩
      unfold Nested.lastNamed
      cases hlast : (f.storedNamed x).getLast? with
      | none =>
          have honly : only ∈ f.loopsNamed x := by simp [hlists]
          have hstored := Nested.eq_nil_or_mem_storedNamed hfresh honly
          rw [List.getLast?_eq_none_iff.mp hlast] at hstored
          exact (hstored.resolve_right List.not_mem_nil).symm
      | some last =>
          have hmem := Nested.storedNamed_subset hfresh x (List.mem_of_getLast? hlast)
          rw [hlists] at hmem
          exact List.mem_singleton.mp hmem

/-- Lists of one level that are not empty hold the same nodes if every loop is served. -/
theorem ids_eq_of_level_eq (hfresh : f.IsFresh)
    (hserved : ∀ x, InTurn Eq (f.lastNamed x) (f.loopsNamed x))
    {e other : Level × Nested Node} (he : e ∈ f.levels Node.id .root)
    (hother : other ∈ f.levels Node.id .root) (hlevel : e.1 = other.1) {a b : String}
    (ha : a ∈ e.2.ids) (hb : b ∈ other.2.ids) : e.2.ids = other.2.ids := by
  have hsome : ∀ {g : Nested Node} {id : String}, id ∈ g.ids → g.roots ≠ [] := by
    intro g id hid hnone
    rw [Nested.ids, hnone] at hid
    cases hid
  rcases Nested.root_or_storedNamed he with rfl | ⟨x, hx, hstored⟩
  · rcases Nested.root_or_storedNamed hother with rfl | ⟨y, hy, -⟩
    · rfl
    · cases hlevel.trans hy
  · rcases Nested.root_or_storedNamed hother with rfl | ⟨y, hy, hstoredOther⟩
    · cases hx.symm.trans hlevel
    · obtain rfl := Level.body.inj (hx.symm.trans (hlevel.trans hy))
      have hroots := (hserved x).eq_of_ne_nil (Nested.storedNamed_subset hfresh x hstored)
        (Nested.storedNamed_subset hfresh x hstoredOther) (hsome ha) (hsome hb)
      rw [Nested.ids, Nested.ids, hroots]

/-- If every loop is served, the graph of a nesting passes the check exactly if no entry
edge enters loops that share their id. -/
theorem keepsRules_graph_iff (hfresh : f.IsFresh)
    (hids : ∀ e ∈ f.levels Node.id .root, e.2.ids.Nodup) (harrives : Arrives part f)
    (hserved : ∀ x, InTurn Eq (f.lastNamed x) (f.loopsNamed x)) :
    (graph p part .root f).KeepsRules ↔
      ∀ x, (f.loopsNamed x).length ≤ 1 ∨ part.entryEdges x = [] := by
  constructor
  · intro hrules x
    have hnodes := hrules.nodes
    rw [walk_eq] at hnodes
    have hentries := entriesFit_of_nodesKeepRules hfresh hnodes
    have hturn := hserved x
    match hlists : f.loopsNamed x with
    | [] => exact Or.inl (Nat.zero_le _)
    | [_] => exact Or.inl (Nat.le_refl _)
    | first :: second :: others =>
        refine Or.inr (List.eq_nil_iff_forall_not_mem.mpr fun edge hedge => ?_)
        -- An entry edge of the id would have to arrive in the second loop, which is empty.
        have hsecond : second ∈ f.loopsNamed x := by simp [hlists]
        rw [hlists] at hturn
        have hempty := hturn.2 second List.mem_cons_self
        have htarget := (hentries _ (Nested.mem_loopsNamed_iff.mp hsecond) edge hedge).2.2
        rw [← hempty] at htarget
        cases htarget
  · intro hquiet
    refine keepsRules_graph hfresh (fun e he => ⟨hids e he, fun l hl hsource => ?_⟩) ?_
    · obtain ⟨other, hother, hlevel, htarget⟩ := harrives.internal e.1 l hl
      rwa [ids_eq_of_level_eq hfresh hserved he hother hlevel.symm hsource htarget]
    · intro e he edge hedge
      obtain ⟨hkind, hsource, other, hother, hlevel, htarget⟩ := harrives.entries e.1 edge hedge
      refine ⟨hkind, hsource, ?_⟩
      rcases hquiet e.1 with hsingle | hnone
      · rcases Nested.root_or_storedNamed hother with rfl | ⟨x, hx, hstored⟩
        · cases hlevel
        · obtain rfl := Level.body.inj (hx.symm.trans hlevel)
          have hlater := Nested.storedNamed_subset hfresh _ hstored
          have hhere := Nested.mem_loopsNamed_iff.mpr he
          match hlists : f.loopsNamed e.1, hsingle with
          | [], _ =>
              rw [hlists] at hhere
              cases hhere
          | [only], _ =>
              rw [hlists] at hhere hlater
              rw [List.mem_singleton.mp hhere, ← List.mem_singleton.mp hlater]
              exact htarget
      · rw [hnone] at hedge
        cases hedge

theorem inTurn_eq_map_iff {α β : Type} (φ : α → β) (stored : List α) (lists : List (List α)) :
    InTurn Eq (stored.map φ) (lists.map (List.map φ)) ↔
      InTurn (fun a b => a.map φ = b.map φ) stored lists := by
  cases lists <;> simp [InTurn]

/-- A loop is served if the faces are right. -/
theorem inTurn_eq_iff_faces (hfresh : f.IsFresh) (x : String) :
    InTurn Eq (f.lastNamed x) (f.loopsNamed x) ↔
      InTurn Eq ((f.lastNamed x).map Node.face) ((f.loopsNamed x).map (List.map Node.face)) := by
  rw [inTurn_eq_map_iff]
  constructor
  · cases f.loopsNamed x with
    | nil => exact fun _ => trivial
    | cons first others =>
        rintro ⟨hfirst, hothers⟩
        refine ⟨congrArg (List.map Node.face) hfirst, ?_⟩
        intro other hother
        exact congrArg (List.map Node.face) (hothers other hother)
  · exact inTurn_eq_of_sameFaces (f.lastNamed_eq_nil_or_mem hfresh x)

end Assembly

namespace Document

/-- The loops of a nesting of records in document order, each before those inside it:
its id and what survives of its body. -/
def loopBodies (g : Registry) : Nested Record → List (String × List Face)
  | .nil => []
  | .leaf r rest => if g.isLoop r then (r.id, []) :: loopBodies g rest else loopBodies g rest
  | .loop r inner rest =>
    (r.id, inner.roots.filterMap (g.survivor? (.body r.id))) ::
      (loopBodies g inner ++ loopBodies g rest)

/-- The loops of a nesting of records in document order, each before those inside it:
its id and the records of its body. -/
def loopLists (g : Registry) : Nested Record → List (String × List Record)
  | .nil => []
  | .leaf r rest => if g.isLoop r then (r.id, []) :: loopLists g rest else loopLists g rest
  | .loop r inner rest => (r.id, inner.roots) :: (loopLists g inner ++ loopLists g rest)

theorem loopBodies_eq (g : Registry) (t : Nested Record) : loopBodies g t =
    (loopLists g t).map fun e => (e.1, e.2.filterMap (g.survivor? (.body e.1))) := by
  induction t with
  | nil => rfl
  | leaf r rest ih =>
      rw [loopBodies, loopLists, ih]
      split <;> rfl
  | loop r inner rest ihInner ihRest =>
      rw [loopBodies, loopLists, ihInner, ihRest, List.map_cons, List.map_append]

/-- What survives of the bodies of the loops with an id, in document order. -/
def bodiesNamed (g : Registry) (t : Nested Record) (x : String) : List (List Face) :=
  ((loopBodies g t).filter fun e => e.1 = x).map Prod.snd

/-- What survives of the bodies that are lifted for an id, in the order in which they are
lifted: a body comes after those inside it. -/
def liftedNamed (g : Registry) (t : Nested Record) (x : String) : List (List Face) :=
  ((t.bodies Record.id).filter fun e => e.1 = .body x).map fun e =>
    e.2.roots.filterMap (g.survivor? e.1)

/-- What survives of the body that is lifted last for an id, if there is any. -/
def lastNamed (g : Registry) (t : Nested Record) (x : String) : List Face :=
  (liftedNamed g t x).getLast?.getD []

/-- The loops of an id leave one another undisturbed: there is at most one, or nothing
survives in any but the first of them, where what was lifted last belongs, and no entry
edge starts from the id. -/
def Undisturbed (g : Registry) (part : EdgePartition) (t : Nested Record) (x : String) : Prop :=
  (bodiesNamed g t x).length ≤ 1 ∨
    Assembly.InTurn Eq (lastNamed g t x) (bodiesNamed g t x) ∧ part.entryEdges x = []

/-- Two loops of one id, each with a body of its own, on different levels. -/
def twins : Document :=
  ⟨[{ Record.bare "b" "21" with blocks := some ⟨[.bare "x" "5"], []⟩ },
    { Record.bare "a" "21" with
      blocks := some
        ⟨[{ Record.bare "b" "21" with blocks := some ⟨[.bare "y" "5"], []⟩ }], []⟩ }],
   [], ∅⟩

end Document

namespace Nested

variable (present : List String)

theorem loops_clean (f : Nested Node) : (f.clean present).loops =
    f.loops.map fun e => (e.1, e.2.map (Dangling.cleanNode present)) := by
  unfold clean
  induction f with
  | nil => rfl
  | leaf n rest ih =>
      simp only [map, loops, Dangling.cleanNode_kind, Dangling.cleanNode_id, ih]
      split <;> rfl
  | loop n inner rest ihInner ihRest =>
      simp [map, loops, ihInner, ihRest]

theorem faces_loopsNamed_clean (f : Nested Node) (x : String) :
    ((f.clean present).loopsNamed x).map (List.map Node.face) =
      (f.loopsNamed x).map (List.map Node.face) := by
  simp [loopsNamed, loops_clean, List.filter_map, Function.comp_def, Dangling.cleanNode_face]

theorem map_face_lastNamed (f : Nested Node) (x : String) :
    (f.lastNamed x).map Node.face =
      ((f.storedNamed x).map (List.map Node.face)).getLast?.getD [] := by
  rw [lastNamed, List.getLast?_map]
  cases (f.storedNamed x).getLast? <;> rfl

theorem faces_lastNamed_clean (f : Nested Node) (x : String) :
    ((f.clean present).lastNamed x).map Node.face = (f.lastNamed x).map Node.face := by
  have hstored : ((f.clean present).storedNamed x).map (List.map Node.face) =
      (f.storedNamed x).map (List.map Node.face) := by
    simp [storedNamed, clean, bodies_map, List.filter_map, Function.comp_def,
      Dangling.cleanNode_face]
  rw [map_face_lastNamed, map_face_lastNamed, hstored]

end Nested

namespace Lift

open Document

variable {g : Registry} {d : Document} {resolver : Resolver} {level : Level}
  {t : Nested Record} {f : Nested Node}

section Map

variable {β : Type} {φ : Node → β} {ψ : Level → Record → Option β}
  (hskip : ∀ level r, g.survivor? level r = none → ψ level r = none)
  (hnode : ∀ level r n, Becomes g resolver level r n → ψ level r = some (φ n))

include hskip hnode

/-- What a record tells of its node, if it becomes one, is told of a list in its order. -/
theorem Decodes.map_roots (hdecodes : Decodes g resolver level t f) :
    f.roots.map φ = t.roots.filterMap (ψ level) := by
  induction hdecodes with
  | nil => rfl
  | skip hnone _ ih => rw [Nested.roots, List.filterMap_cons_none (hskip _ _ hnone), ih]
  | leaf hn _ ih =>
      rw [Nested.roots, Nested.roots, List.filterMap_cons_some (hnode _ _ _ hn), ← ih]
      rfl
  | loop _ hn _ _ _ ih =>
      rw [Nested.roots, Nested.roots, List.filterMap_cons_some (hnode _ _ _ hn), ← ih]
      rfl

/-- What the records inside the loops tell of their nodes is told loop by loop. -/
theorem Decodes.map_loops (hg : g.UsesBuiltIns) (hdecodes : Decodes g resolver level t f) :
    f.loops.map (fun e => (e.1, e.2.map φ)) =
      (loopLists g t).map fun e => (e.1, e.2.filterMap (ψ (.body e.1))) := by
  induction hdecodes with
  | nil => rfl
  | @skip level r _ _ hnone _ ih =>
      have hplain : ¬ g.isLoop r = true := by
        intro hloop
        obtain ⟨face, hface, -⟩ := Registry.survivor?_of_isLoop hloop level
        cases hnone.symm.trans hface
      rw [loopLists, if_neg hplain, ih]
  | @leaf _ _ n _ _ hn _ ih =>
      by_cases hkind : n.kind = .iteration
      · have hloop := (hn.kind_eq_iteration_iff hg).mp hkind
        rw [Nested.loops, if_pos hkind, loopLists, if_pos hloop, List.map_cons, ih, hn.id_eq hg]
        rfl
      · have hplain := mt (hn.kind_eq_iteration_iff hg).mpr hkind
        rw [Nested.loops, if_neg hkind, loopLists, if_neg hplain, ih]
  | loop _ hn hinner _ ihInner ihRest =>
      rw [Nested.loops, loopLists, List.map_cons, List.map_cons, List.map_append,
        List.map_append, ihInner, ihRest, hn.id_eq hg, hinner.map_roots hskip hnode]

end Map

/-- The nodes of a list show the records that survive. -/
theorem Decodes.faces_roots (hg : g.UsesBuiltIns) (hdecodes : Decodes g resolver level t f) :
    f.roots.map Node.face = t.roots.filterMap (g.survivor? level) :=
  hdecodes.map_roots (fun _ _ hnone => hnone) fun _ _ _ hn => hn.survivor?_eq hg

theorem Decodes.faces_bodies (hg : g.UsesBuiltIns) (hdecodes : Decodes g resolver level t f) :
    (f.bodies Node.id).map (fun e => (e.1, e.2.roots.map Node.face)) =
      (t.bodies Record.id).map fun e => (e.1, e.2.roots.filterMap (g.survivor? e.1)) := by
  induction hdecodes with
  | nil => rfl
  | skip _ _ ih => exact ih
  | leaf _ _ ih => exact ih
  | loop _ hn hinner _ ihInner ihRest =>
      simp only [Nested.bodies, List.map_append, List.map_cons, ihInner, ihRest, hn.id_eq hg,
        hinner.faces_roots hg]

theorem Decodes.faces_loops (hg : g.UsesBuiltIns) (hdecodes : Decodes g resolver level t f) :
    f.loops.map (fun e => (e.1, e.2.map Node.face)) = loopBodies g t := by
  rw [loopBodies_eq]
  exact hdecodes.map_loops (fun _ _ hnone => hnone) (fun _ _ _ hn => hn.survivor?_eq hg) hg

theorem Decodes.faces_loopsNamed (hg : g.UsesBuiltIns)
    (hdecodes : Decodes g resolver level t f) (x : String) :
    (f.loopsNamed x).map (List.map Node.face) = bodiesNamed g t x := by
  rw [bodiesNamed, ← hdecodes.faces_loops hg]
  simp [Nested.loopsNamed, List.filter_map, Function.comp_def]

theorem Decodes.faces_lastNamed (hg : g.UsesBuiltIns)
    (hdecodes : Decodes g resolver level t f) (x : String) :
    (f.lastNamed x).map Node.face = Document.lastNamed g t x := by
  have hbodies := congrArg (fun entries => (entries.filter fun e => e.1 = Level.body x).map
    Prod.snd) (hdecodes.faces_bodies hg)
  have hlifted : (f.storedNamed x).map (List.map Node.face) = liftedNamed g t x := by
    simpa [Nested.storedNamed, liftedNamed, List.filter_map, Function.comp_def] using hbodies
  rw [Nested.map_face_lastNamed, hlifted, Document.lastNamed]

end Lift

namespace Conversion

open Assembly Document

variable {p : Platform} {g : Registry} {d : Document} {l : Lifted} {resolver : Resolver}
  {t : Nested Record} {f : Nested Node}

/-- For the loops of one id, being served is being undisturbed. -/
theorem undisturbed_iff (hg : g.UsesBuiltIns) (hdecodes : Lift.Decodes g resolver .root t f)
    (present : List String) (part : EdgePartition) (x : String) :
    Undisturbed g part t x ↔
      InTurn Eq ((f.clean present).lastNamed x) ((f.clean present).loopsNamed x) ∧
        (((f.clean present).loopsNamed x).length ≤ 1 ∨ part.entryEdges x = []) := by
  have hfresh := (hdecodes.isFresh hg).clean present
  have hloops : ((f.clean present).loopsNamed x).map (List.map Node.face) = bodiesNamed g t x := by
    rw [Nested.faces_loopsNamed_clean, hdecodes.faces_loopsNamed hg]
  have hlast : ((f.clean present).lastNamed x).map Node.face = lastNamed g t x := by
    rw [Nested.faces_lastNamed_clean, hdecodes.faces_lastNamed hg]
  have hlength : (bodiesNamed g t x).length = ((f.clean present).loopsNamed x).length := by
    rw [← hloops, List.length_map]
  rw [Undisturbed, hlength, ← hloops, ← hlast, ← inTurn_eq_iff_faces hfresh]
  constructor
  · rintro (hsingle | ⟨hturn, hquiet⟩)
    · exact ⟨inTurn_of_length_le hfresh hsingle, Or.inl hsingle⟩
    · exact ⟨hturn, Or.inr hquiet⟩
  · rintro ⟨hturn, hsingle | hquiet⟩
    · exact Or.inl hsingle
    · exact Or.inr ⟨hturn, hquiet⟩

/-- A lifted document is converted to the direct recursion exactly if the loops of each
id leave one another undisturbed. -/
theorem shape_iff_of_mirrors (hg : g.UsesBuiltIns) (hcheck : d.check = .ok ())
    (hids : ∀ level rs, d.Lists g level rs → (rs.map Record.id).Nodup)
    (hlifted : Lifted.ofDocument? g d = some l) (hunrolls : d.Unrolls g d.records t)
    (hdecodes : Lift.Decodes g resolver .root t f) (hmirrors : l.Mirrors g d t f) :
    (∃ c, ofDocument g d = .ok c ∧ d.Shape g .root d.records c.graph.outline) ↔
      ∀ x, Undisturbed g (partition g.platform l) t x := by
  have hfresh := (hdecodes.isFresh hg).clean (presentIds l.levels)
  have hgraph := assemble_fst_eq g.platform hmirrors
  have hshape : d.Shape g .root d.records (f.clean (presentIds l.levels)).faces := by
    rw [Nested.faces_clean]
    exact hdecodes.shape hg _ hunrolls
  have hlists : ∀ e ∈ (f.clean (presentIds l.levels)).levels Node.id .root, e.2.ids.Nodup := by
    simpa only [Nested.forall_levels_clean, Nested.ids_clean] using
      hdecodes.ids_nodup hg hids hunrolls
  -- The conversion succeeds with the right shape if the assembled graph is that of the
  -- nesting and passes the check.
  have hresult : (∃ c, ofDocument g d = .ok c ∧ d.Shape g .root d.records c.graph.outline) ↔
      (assemble g.platform l).1.KeepsRules ∧
        (assemble g.platform l).1.outline = (f.clean (presentIds l.levels)).faces := by
    constructor
    · rintro ⟨c, hc, hfound⟩
      obtain ⟨-, other, hother, hvalid, rfl⟩ := ofDocument_eq_ok_iff.mp hc
      obtain rfl := Option.some.inj (hlifted.symm.trans hother)
      exact ⟨(Graph.validate_eq_ok_iff _).mp hvalid, hfound.unique hshape⟩
    · rintro ⟨hrules, houtline⟩
      refine ⟨_, ofDocument_eq_ok_iff.mpr ⟨⟨_, hcheck⟩, l, hlifted,
        (Graph.validate_eq_ok_iff _).mpr hrules, rfl⟩, ?_⟩
      rw [houtline]
      exact hshape
  rw [hresult, hgraph, outline_tableOf_iff hfresh]
  simp only [undisturbed_iff hg hdecodes (presentIds l.levels), forall_and]
  rw [← serves_tableOf_iff hfresh, and_comm]
  apply and_congr_right
  intro hserves
  rw [ofLevel_of_serves (nodes_tableOf_root _) hserves]
  exact keepsRules_graph_iff hfresh hlists (arrives_clean hmirrors _)
    ((serves_tableOf_iff hfresh).mp hserves)

/-- A document whose lists repeat no id is converted to the direct recursion exactly if
the loops of each id leave one another undisturbed: then every iteration node holds what
survives of the body of its own record, and otherwise some body is lost or swapped or the
conversion fails. -/
theorem ofDocument_shape_iff (hg : Registry.Derived p g) (hcheck : d.check = .ok ())
    (hacyclic : d.SectionsAcyclic g)
    (hids : ∀ level rs, d.Lists g level rs → (rs.map Record.id).Nodup) :
    ∃ t l, d.Unrolls g d.records t ∧ Lifted.ofDocument? g d = some l ∧
      ((∃ c, ofDocument g d = .ok c ∧ d.Shape g .root d.records c.graph.outline) ↔
        ∀ x, Undisturbed g (partition p l) t x) := by
  have hbuiltIns := hg.usesBuiltIns
  obtain ⟨l, hlifted⟩ := Lifted.exists_ofDocument? hbuiltIns hacyclic
  obtain ⟨resolver, t, f, hunrolls, hdecodes, hmirrors⟩ :=
    Lifted.ofDocument?_mirrors hbuiltIns hlifted
  rw [← hg.platform_eq]
  exact ⟨t, l, hunrolls, hlifted,
    shape_iff_of_mirrors hbuiltIns hcheck hids hlifted hunrolls hdecodes hmirrors⟩

theorem ofDocument_shape_iff_twins :
    Registry.Derived .coze (.withDefaults .coze) ∧ twins.check = .ok () ∧
      twins.SectionsAcyclic (.withDefaults .coze) ∧
        (∀ level rs, twins.Lists (.withDefaults .coze) level rs →
          (rs.map Record.id).Nodup) ∧
        ∃ t l, twins.Unrolls (.withDefaults .coze) twins.records t ∧
          Lifted.ofDocument? (.withDefaults .coze) twins = some l ∧
          ((∃ c, ofDocument (.withDefaults .coze) twins = .ok c ∧
              twins.Shape (.withDefaults .coze) .root twins.records c.graph.outline) ↔
            ∀ x, Undisturbed (.withDefaults .coze) (partition .coze l) t x) := by
  have hcheck : twins.check = .ok () := by decide +kernel
  have hacyclic := twins.sectionsAcyclic_of_eq_nil (g := .withDefaults .coze) rfl
  have hids : ∀ level rs, twins.Lists (.withDefaults .coze) level rs →
      (rs.map Record.id).Nodup := fun _ _ => nodup_of_unroll? 5 (by decide +kernel)
  exact ⟨.defaults, hcheck, hacyclic, hids,
    ofDocument_shape_iff .defaults hcheck hacyclic hids⟩

/-- The conversion succeeds on two loops of one id, and the outer one holds the body of
the inner one, which is left empty. -/
theorem twins_swapped :
    twins.check = .ok () ∧ twins.SectionsAcyclic (.withDefaults .coze) ∧
      (∀ level rs, twins.Lists (.withDefaults .coze) level rs → (rs.map Record.id).Nodup) ∧
      ∃ c, ofDocument (.withDefaults .coze) twins = .ok c ∧
        ¬ twins.Shape (.withDefaults .coze) .root twins.records c.graph.outline := by
  have hresult : (ofDocument (.withDefaults .coze) twins).toOption.map
      (fun c => c.graph.outline) =
        some (.loop ⟨"b", .iteration, "b", [⟨"output", .array⟩]⟩ (.leaf ⟨"y", .code, "y", []⟩ .nil)
          (.loop ⟨"a", .iteration, "a", [⟨"output", .array⟩]⟩
            (.loop ⟨"b", .iteration, "b", [⟨"output", .array⟩]⟩ .nil .nil) .nil)) := by
    decide +kernel
  obtain ⟨c, hc, houtline⟩ := Option.map_eq_some_iff.mp hresult
  refine ⟨by decide +kernel, twins.sectionsAcyclic_of_eq_nil rfl,
    fun _ _ => nodup_of_unroll? 5 (by decide +kernel), c, ?_, fun hshape => ?_⟩
  · cases hconverted : ofDocument (.withDefaults .coze) twins with
    | error e => simp [hconverted, Except.toOption] at hc
    | ok other => simpa [hconverted, Except.toOption] using hc
  · rw [houtline] at hshape
    cases hshape with
    | skip hnone => exact absurd hnone (by decide +kernel)
    | loop _ _ hbody _ =>
        -- The record of the outer loop holds `x` and not `y`.
        have hinside : twins.Shape (.withDefaults .coze) (.body "b") [.bare "x" "5"] _ := hbody
        cases hinside with
        | skip _ hrest => cases hrest
        | leaf hsome => exact absurd hsome (by decide +kernel)

end Conversion

end WorkflowGraph
