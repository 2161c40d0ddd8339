/-
# The graph of a document

The lists of a document that are lifted, each with the level it is lifted to, are the
lists of its nesting. If no two loops on different levels share an id, the graph of a
conversion is that nesting with every body in its place.
-/

import Mathlib.Data.List.Forall2
import WorkflowGraph.Proofs.LiftedNodes
import WorkflowGraph.Proofs.LoopNames

namespace WorkflowGraph

namespace Document

/-- The lists of records that are lifted, each with its level: the root, and the located
bodies of the loops in these lists. -/
inductive Lists (g : Registry) (d : Document) : Level → List Record → Prop
  | root : Lists g d .root d.records
  | body {level : Level} {rs : List Record} {r : Record} {body : Blocks} :
      Lists g d level rs → r ∈ rs → d.opened? g r = some body →
        Lists g d (.body r.id) body.records

/-- No two loops on different levels share an id. -/
def LoopsApart (g : Registry) (d : Document) : Prop :=
  ∀ level rs, d.Lists g level rs → ∀ other rs', d.Lists g other rs' →
    ∀ r ∈ rs, ∀ r' ∈ rs', g.isLoop r = true → g.isLoop r' = true → r.id = r'.id → other = level

variable {g : Registry} {d : Document}

theorem Unrolls.exists_inner {rs : List Record} {t : Nested Record} (ht : d.Unrolls g rs t)
    {r : Record} (hr : r ∈ rs) {body : Blocks} (hopen : d.opened? g r = some body) :
    ∃ inner, (.body r.id, inner) ∈ t.bodies Record.id ∧ d.Unrolls g body.records inner := by
  induction ht with
  | nil => cases hr
  | leaf hclosed _ ih =>
      rcases List.mem_cons.mp hr with rfl | hlater
      · cases hclosed.symm.trans hopen
      · exact ih hlater
  | @loop owner _ blocks inner t hown hinner _ _ ihRest =>
      rcases List.mem_cons.mp hr with rfl | hlater
      · obtain rfl := Option.some.inj (hown.symm.trans hopen)
        exact ⟨inner, List.mem_append_right _ List.mem_cons_self, hinner⟩
      · obtain ⟨other, hmem, hother⟩ := ihRest hlater
        exact ⟨other, List.mem_append_right _ (List.mem_cons_of_mem _ hmem), hother⟩

/-- The lifted lists of a document are the lists of its nesting. -/
theorem Unrolls.exists_of_lists {t : Nested Record} (ht : d.Unrolls g d.records t)
    {level : Level} {rs : List Record} (hlist : d.Lists g level rs) :
    ∃ u, (level, u) ∈ t.levels Record.id .root ∧ d.Unrolls g rs u := by
  induction hlist with
  | root => exact ⟨t, List.mem_append_right _ (List.mem_singleton_self _), ht⟩
  | body _ hr hopen ih =>
      obtain ⟨u, hmem, hu⟩ := ih
      obtain ⟨inner, hinner, hunrolls⟩ := hu.exists_inner hr hopen
      refine ⟨inner, List.mem_append_left _ ?_, hunrolls⟩
      rcases List.mem_append.mp hmem with hin | hroot
      · exact (Nested.bodies_sublist_of_mem Record.id hin).subset hinner
      · obtain ⟨rfl, rfl⟩ := Prod.mk.inj (List.mem_singleton.mp hroot)
        exact hinner

/-- The loops of a nesting of records are apart. -/
def LoopsApartIn (g : Registry) (t : Nested Record) : Prop :=
  ∀ e ∈ t.levels Record.id .root, ∀ other ∈ t.levels Record.id .root,
    ∀ r ∈ e.2.roots, ∀ r' ∈ other.2.roots, g.isLoop r = true → g.isLoop r' = true →
      r.id = r'.id → other.1 = e.1

instance (g : Registry) (t : Nested Record) : Decidable (LoopsApartIn g t) :=
  inferInstanceAs (Decidable (∀ e ∈ t.levels Record.id .root,
    ∀ other ∈ t.levels Record.id .root, ∀ r ∈ e.2.roots, ∀ r' ∈ other.2.roots,
      g.isLoop r = true → g.isLoop r' = true → r.id = r'.id → other.1 = e.1))

/-- Whether the loops of a document are apart can be read off its nesting. -/
theorem Unrolls.loopsApart {t : Nested Record} (ht : d.Unrolls g d.records t)
    (hall : LoopsApartIn g t) : d.LoopsApart g := by
  intro level rs hlist other rs' hlist' r hr r' hr' hloop hloop' hid
  obtain ⟨u, hmem, hu⟩ := ht.exists_of_lists hlist
  obtain ⟨u', hmem', hu'⟩ := ht.exists_of_lists hlist'
  exact hall _ hmem _ hmem' r (hu.roots_eq ▸ hr) r' (hu'.roots_eq ▸ hr') hloop hloop' hid

/-- The nesting of a list of records, found in a given number of steps. -/
def unroll? (g : Registry) (d : Document) : Nat → List Record → Option (Nested Record)
  | 0, _ => none
  | _ + 1, [] => some .nil
  | n + 1, r :: rs =>
    match d.opened? g r with
    | none => (unroll? g d n rs).map fun rest => .leaf r rest
    | some body =>
      (unroll? g d n body.records).bind fun inner =>
        (unroll? g d n rs).map fun rest => .loop r inner rest

theorem unrolls_of_unroll? (n : Nat) :
    ∀ rs t, d.unroll? g n rs = some t → d.Unrolls g rs t := by
  induction n with
  | zero => nofun
  | succ n ih =>
      intro rs t hfound
      cases rs with
      | nil =>
          obtain rfl := Option.some.inj hfound
          exact .nil
      | cons r rs =>
          unfold unroll? at hfound
          split at hfound
          next hclosed =>
              obtain ⟨rest, hrest, rfl⟩ := Option.map_eq_some_iff.mp hfound
              exact .leaf hclosed (ih _ _ hrest)
          next body hopen =>
              obtain ⟨inner, hinner, htail⟩ := Option.bind_eq_some_iff.mp hfound
              obtain ⟨rest, hrest, rfl⟩ := Option.map_eq_some_iff.mp htail
              exact .loop hopen (ih _ _ hinner) (ih _ _ hrest)

/-- A computation decides that the loops of a document are apart. -/
theorem loopsApart_of_unroll? (n : Nat)
    (hall : (d.unroll? g n d.records).any (fun t => LoopsApartIn g t) = true) :
    d.LoopsApart g := by
  obtain ⟨t, hfound, happart⟩ := Option.any_eq_true _ _ |>.mp hall
  exact (unrolls_of_unroll? n _ _ hfound).loopsApart (of_decide_eq_true happart)

/-- A computation decides that no lifted list of a document repeats an id. -/
theorem nodup_of_unroll? (n : Nat)
    (hall : (d.unroll? g n d.records).any (fun t => ∀ e ∈ t.levels Record.id .root,
      (e.2.roots.map Record.id).Nodup) = true) {level : Level} {rs : List Record}
    (hlist : d.Lists g level rs) : (rs.map Record.id).Nodup := by
  obtain ⟨t, hfound, hnodup⟩ := Option.any_eq_true _ _ |>.mp hall
  obtain ⟨u, hmem, hu⟩ := (unrolls_of_unroll? n _ _ hfound).exists_of_lists hlist
  rw [← hu.roots_eq]
  exact of_decide_eq_true hnodup _ hmem

/-- A document with a loop whose body is stored on its record, and inside that body a
loop whose body is a section. -/
def nestedLoops : Document :=
  ⟨[.bare "begin" "1",
    { Record.bare "outer" "21" with
      blocks := some ⟨[.bare "step" "5", .bare "inner" "21", .bare "odd" "unknown"],
        [⟨"", "step", none, "inner", none⟩, ⟨"", "step", none, "odd", none⟩]⟩ },
    .bare "done" "2", .bare "rest" "unknown"],
   [⟨"", "begin", none, "outer", none⟩,
    ⟨"", "outer", some "loop-function-inline-output", "step", none⟩,
    ⟨"", "outer", none, "done", none⟩],
   [("inner", Blocks.mk [.bare "leaf" "5"] [])]⟩

theorem loopsApart_nestedLoops : nestedLoops.LoopsApart (.withDefaults .coze) :=
  loopsApart_of_unroll? 6 (by decide +kernel)

end Document

namespace Dangling

variable (present : List String)

@[simp] theorem cleanNode_id (n : Node) : (cleanNode present n).id = n.id := rfl

@[simp] theorem cleanNode_kind (n : Node) : (cleanNode present n).kind = n.kind := rfl

theorem cleanNode_face (n : Node) : (cleanNode present n).face = n.face := rfl

theorem cleanConfig_kind (config : Config) : (cleanConfig present config).kind = config.kind := by
  cases config <;> rfl

/-- Leaving out references leaves a node as fresh as it was. -/
theorem isFresh_cleanNode {n : Node} (hfresh : n.IsFresh) : (cleanNode present n).IsFresh where
  config := (cleanConfig_kind present n.config).trans hfresh.config
  outputs := hfresh.outputs
  loop := by
    intro loop hloop
    cases hconfig : n.config with
    | iteration own =>
        have hclean : cleanConfig present n.config = .iteration loop := hloop
        rw [hconfig] at hclean
        obtain rfl := Config.iteration.inj hclean
        exact hfresh.loop own hconfig
    | _ =>
        have hclean : cleanConfig present n.config = .iteration loop := hloop
        rw [hconfig] at hclean
        cases hclean

end Dangling

namespace Nested

/-- A nesting of nodes without dangling references. -/
def clean (present : List String) (f : Nested Node) : Nested Node :=
  f.map (Dangling.cleanNode present)

variable (present : List String)

theorem levels_clean (f : Nested Node) (level : Level) :
    (f.clean present).levels Node.id level =
      (f.levels Node.id level).map fun e => (e.1, e.2.clean present) := by
  simp only [levels, clean, bodies_map, List.map_append, List.map_cons, List.map_nil]
  rfl

/-- A list of the cleaned nesting is a list of the nesting. -/
theorem forall_levels_clean (f : Nested Node) (level : Level)
    {motive : Level × Nested Node → Prop} :
    (∀ e ∈ (f.clean present).levels Node.id level, motive e) ↔
      ∀ e ∈ f.levels Node.id level, motive (e.1, e.2.clean present) := by
  rw [levels_clean, List.forall_mem_map]

@[simp] theorem iterationIds_clean (f : Nested Node) :
    (f.clean present).iterationIds = f.iterationIds := by
  induction f with
  | nil => rfl
  | leaf n rest ih =>
      have hrest : iterationIds (rest.map (Dangling.cleanNode present)) = rest.iterationIds := ih
      simp [clean, map, iterationIds, hrest]
  | loop n inner rest _ ih =>
      have hrest : iterationIds (rest.map (Dangling.cleanNode present)) = rest.iterationIds := ih
      simp [clean, map, iterationIds, hrest]

@[simp] theorem ids_clean (f : Nested Node) : (f.clean present).ids = f.ids := by
  simp [ids, clean, Function.comp_def]

theorem IsFresh.clean {f : Nested Node} (hfresh : f.IsFresh) : (f.clean present).IsFresh := by
  induction hfresh with
  | nil => exact .nil
  | leaf hn _ ih => exact .leaf (Dangling.isFresh_cleanNode present hn) ih
  | loop hn hkind _ _ ihInner ihRest =>
      exact .loop (Dangling.isFresh_cleanNode present hn) hkind ihInner ihRest

end Nested

/-- The records of a list that become nodes on its level. -/
def Registry.survivors (g : Registry) (level : Level) (rs : List Record) : List Record :=
  rs.filter fun r => (g.survivor? level r).isSome

namespace Lift

variable {g : Registry} {d : Document} {resolver : Resolver}

theorem Decodes.isFresh (hg : g.UsesBuiltIns) {level : Level} {t : Nested Record}
    {f : Nested Node} (hdecodes : Decodes g resolver level t f) : f.IsFresh := by
  induction hdecodes with
  | nil => exact .nil
  | skip _ _ ih => exact ih
  | leaf hn _ ih => exact .leaf (hn.isFresh hg) ih
  | loop hloop hn _ _ ihInner ihRest =>
      exact .loop (hn.isFresh hg) ((hn.kind_eq_iteration_iff hg).mpr hloop) ihInner ihRest

/-- The records of a list that survive become its nodes, in their order. -/
theorem Decodes.forall₂_roots (hg : g.UsesBuiltIns) {level : Level} {t : Nested Record}
    {f : Nested Node} (hdecodes : Decodes g resolver level t f) :
    List.Forall₂ (Becomes g resolver level) (g.survivors level t.roots) f.roots := by
  unfold Registry.survivors
  induction hdecodes with
  | nil => exact .nil
  | skip hnone _ ih =>
      rw [Nested.roots, List.filter_cons_of_neg (by simp [hnone])]
      exact ih
  | leaf hn _ ih =>
      rw [Nested.roots, List.filter_cons_of_pos (by simp [hn.survivor?_eq hg])]
      exact .cons hn ih
  | loop _ hn _ _ _ ih =>
      rw [Nested.roots, List.filter_cons_of_pos (by simp [hn.survivor?_eq hg])]
      exact .cons hn ih

/-- The nodes of a list have the ids of the records that survive. -/
theorem Decodes.ids_eq (hg : g.UsesBuiltIns) {level : Level} {t : Nested Record}
    {f : Nested Node} (hdecodes : Decodes g resolver level t f) :
    f.ids = (g.survivors level t.roots).map Record.id := by
  rw [Nested.ids, ← List.forall₂_eq_eq_eq, List.forall₂_map_left_iff, List.forall₂_map_right_iff]
  exact (hdecodes.forall₂_roots hg).flip.imp fun _ _ hn => Becomes.id_eq hg hn

/-- A list inside a nesting of records becomes the list inside the node of its loop. -/
theorem Decodes.exists_inner (hg : g.UsesBuiltIns) {level : Level} {t : Nested Record}
    {f : Nested Node} (hdecodes : Decodes g resolver level t f) {e : Level × Nested Record}
    (he : e ∈ t.bodies Record.id) :
    ∃ body, (e.1, body) ∈ f.bodies Node.id ∧ Decodes g resolver e.1 e.2 body := by
  induction hdecodes with
  | nil => cases he
  | skip _ _ ih => exact ih he
  | leaf _ _ ih => exact ih he
  | loop _ hn hinner _ ihInner ihRest =>
      rw [Nested.bodies, hn.id_eq hg]
      rcases List.mem_append.mp he with hin | hafter
      · obtain ⟨body, hbody, hdec⟩ := ihInner hin
        exact ⟨body, List.mem_append_left _ hbody, hdec⟩
      · rcases List.mem_cons.mp hafter with rfl | hlater
        · exact ⟨_, List.mem_append_right _ List.mem_cons_self, hinner⟩
        · obtain ⟨body, hbody, hdec⟩ := ihRest hlater
          exact ⟨body, List.mem_append_right _ (List.mem_cons_of_mem _ hbody), hdec⟩

/-- Each lifted list of a document becomes a list of its nesting, on the same level. -/
theorem Decodes.exists_decodes_of_lists (hg : g.UsesBuiltIns) {t : Nested Record}
    {f : Nested Node} (hunrolls : d.Unrolls g d.records t)
    (hdecodes : Decodes g resolver .root t f) {level : Level} {rs : List Record}
    (hlist : d.Lists g level rs) :
    ∃ u body, (level, body) ∈ f.levels Node.id .root ∧ d.Unrolls g rs u ∧
      Decodes g resolver level u body := by
  obtain ⟨u, hmem, hu⟩ := hunrolls.exists_of_lists hlist
  rcases List.mem_append.mp hmem with hin | hroot
  · obtain ⟨body, hbody, hdec⟩ := hdecodes.exists_inner hg hin
    exact ⟨u, body, List.mem_append_left _ hbody, hu, hdec⟩
  · obtain ⟨rfl, rfl⟩ := Prod.mk.inj (List.mem_singleton.mp hroot)
    exact ⟨u, f, List.mem_append_right _ (List.mem_singleton_self _), hu, hdecodes⟩

/-- Nodes keep the ids and the order of their records. -/
theorem Decodes.ids_sublist (hg : g.UsesBuiltIns) {level : Level} {t : Nested Record}
    {f : Nested Node} (hdecodes : Decodes g resolver level t f) :
    f.ids.Sublist (t.roots.map Record.id) := by
  rw [hdecodes.ids_eq hg]
  exact List.filter_sublist.map Record.id

/-- The iteration nodes of a list are its loops. -/
theorem Decodes.exists_loop (hg : g.UsesBuiltIns) {level : Level} {t : Nested Record}
    {f : Nested Node} (hdecodes : Decodes g resolver level t f) {x : String}
    (hx : x ∈ f.iterationIds) : ∃ r ∈ t.roots, g.isLoop r = true ∧ r.id = x := by
  induction hdecodes with
  | nil => cases hx
  | skip _ _ ih =>
      obtain ⟨r, hr, hfound⟩ := ih hx
      exact ⟨r, List.mem_cons_of_mem _ hr, hfound⟩
  | @leaf _ r n _ _ hn _ ih =>
      unfold Nested.iterationIds at hx
      split at hx
      next hkind =>
          rcases List.mem_cons.mp hx with rfl | hlater
          · exact ⟨r, List.mem_cons_self, (hn.kind_eq_iteration_iff hg).mp hkind,
              (hn.id_eq hg).symm⟩
          · obtain ⟨r', hr', hfound⟩ := ih hlater
            exact ⟨r', List.mem_cons_of_mem _ hr', hfound⟩
      next =>
          obtain ⟨r', hr', hfound⟩ := ih hx
          exact ⟨r', List.mem_cons_of_mem _ hr', hfound⟩
  | @loop _ r n _ _ _ _ hloop hn _ _ _ ih =>
      rcases List.mem_cons.mp hx with rfl | hlater
      · exact ⟨r, List.mem_cons_self, hloop, (hn.id_eq hg).symm⟩
      · obtain ⟨r', hr', hfound⟩ := ih hlater
        exact ⟨r', List.mem_cons_of_mem _ hr', hfound⟩

/-- A list of nodes comes from a lifted list of the document. -/
def ComesFrom (g : Registry) (d : Document) (resolver : Resolver) (e : Level × Nested Node) :
    Prop :=
  ∃ rs t, d.Lists g e.1 rs ∧ d.Unrolls g rs t ∧ Decodes g resolver e.1 t e.2

theorem Decodes.comesFrom_bodies (hg : g.UsesBuiltIns) {level : Level} {t : Nested Record}
    {f : Nested Node} (hdecodes : Decodes g resolver level t f) :
    ∀ rs whole, d.Unrolls g rs t → d.Lists g level whole → rs ⊆ whole →
      ∀ e ∈ f.bodies Node.id, ComesFrom g d resolver e := by
  induction hdecodes with
  | nil => exact fun _ _ _ _ _ _ he => absurd he List.not_mem_nil
  | skip _ _ ih =>
      intro rs whole hunrolls hwhole hsub
      cases hunrolls with
      | leaf _ hrest => exact ih _ whole hrest hwhole fun r hr => hsub (List.mem_cons_of_mem _ hr)
  | leaf _ _ ih =>
      intro rs whole hunrolls hwhole hsub
      cases hunrolls with
      | leaf _ hrest => exact ih _ whole hrest hwhole fun r hr => hsub (List.mem_cons_of_mem _ hr)
  | loop _ hn hdecodesInner _ ihInner ihRest =>
      intro rs whole hunrolls hwhole hsub e he
      cases hunrolls with
      | loop hopen hinner hrest =>
          have hlist := Document.Lists.body hwhole (hsub List.mem_cons_self) hopen
          simp only [Nested.bodies, List.mem_append, List.mem_cons] at he
          rcases he with hin | rfl | hlater
          · exact ihInner _ _ hinner hlist (fun _ hr => hr) e hin
          · rw [hn.id_eq hg]
            exact ⟨_, _, hlist, hinner, hdecodesInner⟩
          · exact ihRest _ whole hrest hwhole (fun r hr => hsub (List.mem_cons_of_mem _ hr)) e
              hlater

/-- Every list of the nesting of a document comes from a lifted list. -/
theorem Decodes.comesFrom (hg : g.UsesBuiltIns) {t : Nested Record} {f : Nested Node}
    (hunrolls : d.Unrolls g d.records t) (hdecodes : Decodes g resolver .root t f) :
    ∀ e ∈ f.levels Node.id .root, ComesFrom g d resolver e := by
  intro e he
  rcases List.mem_append.mp he with hin | hroot
  · exact hdecodes.comesFrom_bodies hg _ _ hunrolls .root (fun _ hr => hr) e hin
  · obtain rfl := List.mem_singleton.mp hroot
    exact ⟨_, _, .root, hunrolls, hdecodes⟩

theorem Decodes.loopsApart (hg : g.UsesBuiltIns) (hapart : d.LoopsApart g) {t : Nested Record}
    {f : Nested Node} (hunrolls : d.Unrolls g d.records t)
    (hdecodes : Decodes g resolver .root t f) : f.LoopsApart := by
  intro e he other hother x hx hxother
  obtain ⟨rs, u, hlist, hu, hdec⟩ := hdecodes.comesFrom hg hunrolls e he
  obtain ⟨rs', u', hlist', hu', hdec'⟩ := hdecodes.comesFrom hg hunrolls other hother
  obtain ⟨r, hr, hloop, rfl⟩ := hdec.exists_loop hg hx
  obtain ⟨r', hr', hloop', hid⟩ := hdec'.exists_loop hg hxother
  rw [hu.roots_eq] at hr
  rw [hu'.roots_eq] at hr'
  exact hapart _ rs hlist _ rs' hlist' r hr r' hr' hloop hloop' hid.symm

/-- Lists of the document that repeat no id become lists that repeat none. -/
theorem Decodes.ids_nodup (hg : g.UsesBuiltIns)
    (hids : ∀ level rs, d.Lists g level rs → (rs.map Record.id).Nodup) {t : Nested Record}
    {f : Nested Node} (hunrolls : d.Unrolls g d.records t)
    (hdecodes : Decodes g resolver .root t f) : ∀ e ∈ f.levels Node.id .root, e.2.ids.Nodup := by
  intro e he
  obtain ⟨rs, u, hlist, hu, hdec⟩ := hdecodes.comesFrom hg hunrolls e he
  have hsub := hdec.ids_sublist hg
  rw [hu.roots_eq] at hsub
  exact hsub.nodup (hids _ rs hlist)

end Lift

namespace Conversion

open Assembly

variable {g : Registry} {d : Document}

/-- A conversion succeeds if the document passes its check, can be lifted, and its graph
passes the check of graphs. -/
theorem ofDocument_eq_ok_iff {c : Conversion} : ofDocument g d = .ok c ↔
    (∃ u, d.check = .ok u) ∧ ∃ l, Lifted.ofDocument? g d = some l ∧
      (assemble g.platform l).1.validate = .ok () ∧
        c = ⟨g.platform, (assemble g.platform l).1, (assemble g.platform l).2⟩ := by
  unfold ofDocument
  cases hcheck : d.check with
  | error e => simp
  | ok u =>
      cases hlifted : Lifted.ofDocument? g d with
      | none => simp
      | some l =>
          cases hvalid : (assemble g.platform l).1.validate with
          | error e => simp [hvalid]
          | ok u' => simp [hvalid, eq_comm]

/-- A result that passes a test is a success. -/
theorem exists_ok_of_any {ε α : Type} {x : Except ε α} {q : α → Bool}
    (hpasses : x.toOption.any q = true) : ∃ a, x = .ok a ∧ q a = true := by
  cases x with
  | error e => cases hpasses
  | ok a => exact ⟨a, rfl, hpasses⟩

theorem exists_of_isOk (hok : (ofDocument g d).isOk = true) : ∃ c, ofDocument g d = .ok c := by
  cases hresult : ofDocument g d with
  | error e => simp [hresult, Except.isOk, Except.toBool] at hok
  | ok c => exact ⟨c, rfl⟩

theorem eq_ok_of_toOption_eq_some {c : Conversion} (hc : (ofDocument g d).toOption = some c) :
    ofDocument g d = .ok c := by
  cases hresult : ofDocument g d with
  | error e => simp [hresult, Except.toOption] at hc
  | ok other => simpa [hresult, Except.toOption] using hc

/-- Leaving out dangling references keeps the levels of a nesting. -/
theorem cleanLevels_eq {l : Lifted} {t : Nested Record} {f : Nested Node}
    (hmirrors : l.Mirrors g d t f) :
    cleanLevels l.levels = ((f.clean (presentIds l.levels)).levels Node.id .root).map
      fun e => (e.1, e.2.roots) := by
  rw [Nested.levels_clean, cleanLevels]
  simp [hmirrors.levels, Nested.clean, Function.comp_def]

theorem assemble_fst_eq (p : Platform) {l : Lifted} {t : Nested Record} {f : Nested Node}
    (hmirrors : l.Mirrors g d t f) :
    (assemble p l).1 = (ofLevel p (partition p l) .root
      (tableOf (f.clean (presentIds l.levels)))).value := by
  rw [tableOf, ← cleanLevels_eq hmirrors]
  rfl

/-- What becomes of a lifted document whose loops are apart. -/
structure Rebuilt (g : Registry) (d : Document) (l : Lifted) (t : Nested Record)
    (f : Nested Node) : Prop where
  mirrors : l.Mirrors g d t f
  graph : (assemble g.platform l).1 = Assembly.graph g.platform (partition g.platform l) .root
    (f.clean (presentIds l.levels))
  levels : ((f.levels Node.id .root).map Prod.fst).Nodup
  ids : ∀ e ∈ f.levels Node.id .root, e.2.ids.Nodup
  apart : f.LoopsApart

/-- If the loops of a document are apart, the lists it is lifted to are put together to
its nesting, unless a list repeats an id and the check of graphs finds it. -/
theorem rebuilt_of_loopsApart (hg : g.UsesBuiltIns) (hapart : d.LoopsApart g) {l : Lifted}
    {resolver : Resolver} {t : Nested Record} {f : Nested Node}
    (hunrolls : d.Unrolls g d.records t) (hdecodes : Lift.Decodes g resolver .root t f)
    (hmirrors : l.Mirrors g d t f)
    (hkeeps : (∀ e ∈ f.levels Node.id .root, e.2.ids.Nodup) ∨
      (assemble g.platform l).1.validate = .ok ()) : Rebuilt g d l t f := by
  have hloops := hdecodes.loopsApart hg hapart hunrolls
  have hclean : (f.clean (presentIds l.levels)).LoopsApart := by
    simpa only [Nested.LoopsApart, Nested.forall_levels_clean, Nested.iterationIds_clean]
      using hloops
  have hkept : (∀ e ∈ (f.clean (presentIds l.levels)).levels Node.id .root, e.2.ids.Nodup) ∨
      (ofLevel g.platform (partition g.platform l) .root
        (tableOf (f.clean (presentIds l.levels)))).value.KeepsRules := by
    rcases hkeeps with hlists | hvalid
    · exact Or.inl (by simpa only [Nested.forall_levels_clean, Nested.ids_clean] using hlists)
    · rw [assemble_fst_eq _ hmirrors, Graph.validate_eq_ok_iff] at hvalid
      exact Or.inr hvalid
  obtain ⟨hgraph, hlevels, hids⟩ :=
    ofLevel_tableOf hclean ((hdecodes.isFresh hg).clean _) hkept
  refine ⟨hmirrors, ?_, ?_, ?_, hloops⟩
  · rw [assemble_fst_eq _ hmirrors, hgraph]
  · simpa [Nested.levels_clean, Function.comp_def] using hlevels
  · simpa only [Nested.forall_levels_clean, Nested.ids_clean] using hids

/-- What a conversion has built on the way, if the loops of the document are apart. -/
theorem exists_rebuilt_of_loopsApart (hg : g.UsesBuiltIns) (hapart : d.LoopsApart g)
    {c : Conversion} (hc : ofDocument g d = .ok c) :
    ∃ resolver t f l, Survey.resolver? g d = some resolver ∧ d.Unrolls g d.records t ∧
      Lift.Decodes g resolver .root t f ∧ Lifted.ofDocument? g d = some l ∧
        Rebuilt g d l t f ∧
          c = ⟨g.platform, (assemble g.platform l).1, (assemble g.platform l).2⟩ := by
  obtain ⟨-, l, hlifted, hvalid, rfl⟩ := ofDocument_eq_ok_iff.mp hc
  obtain ⟨resolver, t, f, hresolver, ht, hdecodes, hmirrors⟩ :=
    Lifted.ofDocument?_decodes hg hlifted
  exact ⟨resolver, t, f, l, hresolver, ht, hdecodes, hlifted,
    rebuilt_of_loopsApart hg hapart ht hdecodes hmirrors (Or.inr hvalid), rfl⟩

end Conversion

end WorkflowGraph
