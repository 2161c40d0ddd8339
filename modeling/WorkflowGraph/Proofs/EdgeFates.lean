/-
# Every captured link has one fate

The links of a document are captured where they are listed: on the root, in the bodies
that are lifted, and in the bodies that are dropped. Each of them ends up in exactly one
place: as a control edge of some level of the graph, as an entry edge of an iteration
node, or in a finding about a dropped edge. Nothing else ends up there.
-/

import Mathlib.Data.List.Perm.Basic
import WorkflowGraph.Proofs.Findings
import WorkflowGraph.Proofs.KeptEdges

namespace WorkflowGraph

/-! The links of bodies that are not lifted. A body stored on a loop-start record is not
looked at. -/
mutual

/-- The links of a body that is not lifted, and of the bodies stored inside it. -/
def Blocks.unliftedLinks (p : Platform) : Blocks → List Link
  | ⟨records, links⟩ => links ++ Record.unliftedLinks p records

/-- The links of the bodies stored on the records of a body that is not lifted. -/
def Record.unliftedLinks (p : Platform) : List Record → List Link
  | [] => []
  | ⟨_, tag, _, _, _, _, blocks, _⟩ :: rs =>
    (if p.isPseudoTag tag then [] else Blocks.unliftedLinks? p blocks)
      ++ Record.unliftedLinks p rs

/-- The links of the body stored on a record that is not lifted. -/
def Blocks.unliftedLinks? (p : Platform) : Option Blocks → List Link
  | none => []
  | some b => Blocks.unliftedLinks p b

end

namespace Document

variable (g : Registry) (d : Document)

/-- The links captured below the records of a nesting: those of the bodies that are
lifted, and those of the bodies stored on records that become another kind of node or
none. -/
def innerLinks : Nested Record → List Link
  | .nil => []
  | .leaf r rest =>
    (if g.platform.isPseudoTag r.tag ∨ g.kind? r.tag = some .finish ∨ g.isLoop r then []
      else Blocks.unliftedLinks? g.platform r.blocks) ++ innerLinks rest
  | .loop r inner rest =>
    (d.body? r).toList.flatMap Blocks.links ++ innerLinks inner ++ innerLinks rest

/-- The links captured from a document with a given nesting: those of the root, those
below its records, and those of the sections that no loop takes. -/
def capturedLinks (t : Nested Record) : List Link :=
  d.links ++ d.innerLinks g t ++
    (d.sections.entries.filter fun entry => !(Lift.openedSections d t).contains entry.1).flatMap
      fun entry => entry.2.unliftedLinks g.platform

end Document

namespace Harvest

mutual

theorem map_snd_links_ofUnlifted (p : Platform) (owner : String) :
    (b : Blocks) → (ofUnlifted p owner b).links.map Prod.snd = b.unliftedLinks p
  | ⟨records, links⟩ => by
      have hrecords := map_snd_links_ofUnliftedRecords p owner records
      rw [ofUnlifted, Blocks.unliftedLinks, links_append, List.map_append, hrecords]
      simp [ofLinks, Function.comp_def]

theorem map_snd_links_ofUnliftedRecords (p : Platform) (owner : String) :
    (rs : List Record) →
      (ofUnliftedRecords p owner rs).links.map Prod.snd = Record.unliftedLinks p rs
  | [] => rfl
  | ⟨id, tag, title, params, inputs, outputs, blocks, presentation⟩ :: rs => by
      have hrest := map_snd_links_ofUnliftedRecords p owner rs
      have hinner := map_snd_links_ofUnliftedInner p id blocks
      rw [ofUnliftedRecords, Record.unliftedLinks]
      split
      · simp [hrest, empty]
      · simp [hrest, hinner, ofDropped, empty]

theorem map_snd_links_ofUnliftedInner (p : Platform) (owner : String) :
    (b : Option Blocks) →
      (ofUnliftedInner p owner b).links.map Prod.snd = Blocks.unliftedLinks? p b
  | none => rfl
  | some b => by
      rw [ofUnliftedInner, Blocks.unliftedLinks?]
      exact map_snd_links_ofUnlifted p owner b

end

end Harvest

namespace Lifted

variable {g : Registry} {d : Document}

theorem map_snd_listedLinks (t : Nested Record) :
    (Lift.listedLinks g d t).map Prod.snd = d.innerLinks g t := by
  induction t with
  | nil => rfl
  | leaf r rest ih =>
      rw [Lift.listedLinks, Document.innerLinks, List.map_append, ih, Lift.droppedLinks]
      split
      · rfl
      · rw [Harvest.map_snd_links_ofUnliftedInner]
  | loop r inner rest ihInner ihRest =>
      rw [Lift.listedLinks, Document.innerLinks, List.map_append, List.map_append, ihInner,
        ihRest]
      cases d.body? r <;> simp [Function.comp_def]

/-- The links of a harvest are the captured ones. -/
theorem Mirrors.map_snd_links {l : Lifted} {t : Nested Record} {f : Nested Node}
    (hmirrors : l.Mirrors g d t f) : l.harvest.links.map Prod.snd = d.capturedLinks g t := by
  have horphans : (Lift.orphans g d (Lift.openedSections d t)).links.map Prod.snd =
      (d.sections.entries.filter fun entry => !(Lift.openedSections d t).contains entry.1).flatMap
        fun entry => entry.2.unliftedLinks g.platform := by
    unfold Lift.orphans
    induction d.sections.entries.filter fun entry =>
        !(Lift.openedSections d t).contains entry.1 with
    | nil => rfl
    | cons entry rest ih =>
        rw [List.foldr_cons, Harvest.links_append, List.map_append, ih, List.flatMap_cons,
          Harvest.map_snd_links_ofUnlifted]
  rw [hmirrors.links, Document.capturedLinks, List.map_append, List.map_append, horphans,
    map_snd_listedLinks]
  simp [Function.comp_def]

end Lifted

namespace Node

/-- The level inside a node. -/
def inner? (n : Node) : Option Graph :=
  n.loop?.map Loop.body

/-- The edges of the level inside a node. -/
def bodyEdges (n : Node) : List Edge :=
  match n.loop? with
  | some loop => loop.body.edges
  | none => []

/-- The edges that lead from a node into the level inside it. -/
def entryEdges (n : Node) : List Edge :=
  match n.loop? with
  | some loop => loop.entryEdges
  | none => []

theorem bodyEdges_eq (n : Node) : n.bodyEdges = n.inner?.toList.flatMap Graph.edges := by
  unfold bodyEdges inner?
  cases n.loop? <;> simp

end Node

namespace Graph

/-- All levels: the outermost one, and those inside its loops at any depth. -/
def levels (g : Graph) : List Graph :=
  g :: g.walk.flatMap fun n => n.inner?.toList

/-- The edges of all levels. -/
def levelEdges (g : Graph) : List Edge :=
  g.edges ++ g.walk.flatMap Node.bodyEdges

/-- The entry edges of all iteration nodes. -/
def allEntryEdges (g : Graph) : List Edge :=
  g.walk.flatMap Node.entryEdges

theorem levelEdges_eq (g : Graph) : g.levelEdges = g.levels.flatMap edges := by
  rw [levelEdges, levels, List.flatMap_cons, List.flatMap_assoc, funext Node.bodyEdges_eq]

end Graph

namespace Assembly

open WorkflowGraph.Graph

variable (p : Platform) (part : EdgePartition)

theorem inner?_withBody {n : Node} (hn : n.IsFresh) (hkind : n.kind = .iteration)
    (body : Graph) : (n.withBody part body).inner? = some body := by
  obtain ⟨loop, hconfig, hbody, -⟩ := hn.withBody_config hkind part body
  simp [Node.inner?, Node.loop?, hconfig, hbody]

theorem entryEdges_withBody {n : Node} (hn : n.IsFresh) (hkind : n.kind = .iteration)
    (body : Graph) : (n.withBody part body).entryEdges = part.entryEdges n.id := by
  obtain ⟨loop, hconfig, -, hentries⟩ := hn.withBody_config hkind part body
  simp [Node.entryEdges, Node.loop?, hconfig, hentries]

theorem loop?_of_ne {n : Node} (hn : n.IsFresh) (hkind : n.kind ≠ .iteration) :
    n.loop? = none := by
  have hconfig := hn.config ▸ hkind
  unfold Node.loop?
  cases h : n.config with
  | iteration loop =>
      rw [h] at hconfig
      exact absurd rfl hconfig
  | _ => rfl

theorem inner?_bare {n : Node} (hn : n.IsFresh) :
    (bare part n).inner? = if n.kind = .iteration then some .empty else none := by
  unfold bare
  split
  next hkind => exact inner?_withBody part hn hkind .empty
  next hkind => simp [Node.inner?, loop?_of_ne hn hkind]

theorem entryEdges_bare {n : Node} (hn : n.IsFresh) :
    (bare part n).entryEdges = if n.kind = .iteration then part.entryEdges n.id else [] := by
  unfold bare
  split
  next hkind => exact entryEdges_withBody part hn hkind .empty
  next hkind => simp [Node.entryEdges, loop?_of_ne hn hkind]

/-- What is read off the levels inside the loops of a nesting, level by level, if nothing is
read off an empty level. -/
theorem flatMap_inner_perm {β : Type} {φ : Graph → List β} (hempty : φ .empty = [])
    {f : Nested Node} (hfresh : f.IsFresh) :
    ((walkNodes (attached p part f)).flatMap fun n => n.inner?.toList.flatMap φ).Perm
      ((f.bodies Node.id).flatMap fun e => φ (graph p part e.1 e.2)) := by
  induction hfresh with
  | nil => exact .refl _
  | @leaf n _ hn _ ih =>
      have hbare : ((bare part n).inner?.toList.flatMap φ) = [] := by
        rw [inner?_bare part hn]
        split <;> simp [hempty]
      rw [walkNodes_attached_leaf _ _ hn, List.flatMap_cons, hbare]
      exact ih
  | loop hn hkind _ _ ihInner ihRest =>
      rw [walkNodes_attached_loop _ _ hn hkind, Nested.bodies, List.flatMap_cons,
        List.flatMap_append, List.flatMap_append, List.flatMap_cons,
        inner?_withBody _ hn hkind, Option.toList_some, List.flatMap_singleton]
      exact ((ihInner.append ihRest).append_left _).trans (List.perm_append_comm_assoc _ _ _)

/-- The entry edges of the loops of a nesting, those of the outermost list first. -/
theorem entryEdges_perm {f : Nested Node} (hfresh : f.IsFresh) :
    ((walkNodes (attached p part f)).flatMap Node.entryEdges).Perm
      (f.iterationIds.flatMap part.entryEdges ++
        (f.bodies Node.id).flatMap fun e => e.2.iterationIds.flatMap part.entryEdges) := by
  induction hfresh with
  | nil => exact .refl _
  | @leaf n rest hn _ ih =>
      rw [walkNodes_attached_leaf _ _ hn, List.flatMap_cons, entryEdges_bare _ hn, Nested.bodies,
        Nested.iterationIds]
      split
      next =>
          rw [List.flatMap_cons, List.append_assoc]
          exact ih.append_left _
      next => exact ih
  | @loop n inner rest hn hkind _ _ ihInner ihRest =>
      rw [walkNodes_attached_loop _ _ hn hkind, Nested.bodies, Nested.iterationIds,
        List.flatMap_cons, List.flatMap_append, List.flatMap_cons, List.flatMap_append,
        List.flatMap_cons, entryEdges_withBody _ hn hkind, List.append_assoc]
      apply List.Perm.append_left
      apply (ihInner.append ihRest).trans
      apply List.perm_iff_count.mpr
      intro e
      simp only [List.count_append]
      omega

end Assembly

namespace EdgePartition

variable {α γ κ : Type} [DecidableEq γ]

/-- Collecting the members of a list class by class rearranges the list. -/
theorem flatMap_filter_perm (classOf : α → γ) (make : κ → γ) (hmake : Function.Injective make)
    {keys : List κ} (hkeys : keys.Nodup) (xs : List α) :
    (keys.flatMap fun k => xs.filter fun x => classOf x = make k).Perm
      (xs.filter fun x => classOf x ∈ keys.map make) := by
  induction keys with
  | nil => simp
  | cons k keys ih =>
      obtain ⟨hnew, hrest⟩ := List.nodup_cons.mp hkeys
      have hhere : (xs.filter fun x => classOf x = make k) =
          (xs.filter fun x => classOf x ∈ (k :: keys).map make).filter fun x =>
            classOf x = make k := by
        rw [List.filter_filter]
        apply List.filter_congr
        intro x _
        by_cases hx : classOf x = make k <;> simp [hx]
      have hlater : (xs.filter fun x => classOf x ∈ keys.map make) =
          (xs.filter fun x => classOf x ∈ (k :: keys).map make).filter fun x =>
            !decide (classOf x = make k) := by
        rw [List.filter_filter]
        apply List.filter_congr
        intro x _
        by_cases hx : classOf x = make k
        · have hnot : ¬ ∃ a ∈ keys, make a = make k := fun ⟨a, ha, heq⟩ => hnew (hmake heq ▸ ha)
          simp [hx, hnot]
        · simp [hx]
      calc ((k :: keys).flatMap fun k => xs.filter fun x => classOf x = make k)
          = (xs.filter fun x => classOf x = make k) ++
              keys.flatMap fun k => xs.filter fun x => classOf x = make k := List.flatMap_cons
        List.Perm _ ((xs.filter fun x => classOf x = make k) ++
            xs.filter fun x => classOf x ∈ keys.map make) := (ih hrest).append_left _
        List.Perm _ (xs.filter fun x => classOf x ∈ (k :: keys).map make) := by
          rw [hhere, hlater]
          exact List.filter_append_perm _ _

/-- A list whose members fall into four classes that exclude one another is made of the
members of each. -/
theorem perm_of_classes [DecidableEq α] {xs : List α} {a b c d : α → Bool}
    (hone : ∀ x ∈ xs, (a x).toNat + (b x).toNat + (c x).toNat + (d x).toNat = 1) :
    (xs.filter a ++ xs.filter b ++ xs.filter c ++ xs.filter d).Perm xs := by
  have hcount : ∀ (q : α → Bool) (x : α), (xs.filter q).count x = (q x).toNat * xs.count x := by
    intro q x
    cases hq : q x with
    | true => rw [List.count_filter hq, Bool.toNat_true, Nat.one_mul]
    | false =>
        rw [Bool.toNat_false, Nat.zero_mul]
        exact List.count_eq_zero_of_not_mem fun h =>
          absurd (List.mem_filter.mp h).2 (by simp [hq])
  apply List.perm_iff_count.mpr
  intro x
  simp only [List.count_append, hcount, ← Nat.add_mul]
  by_cases hx : x ∈ xs
  · rw [hone x hx, Nat.one_mul]
  · rw [List.count_eq_zero_of_not_mem hx, Nat.mul_zero]

end EdgePartition

/-- What becomes of a captured link: an edge of some level, an entry edge of a loop, or a
finding that it was dropped. -/
inductive EdgeFate
  | control (e : Edge)
  | entry (e : Edge)
  | mixed (edge source target : String)
  | dangling (edge source target : String)
  deriving DecidableEq

namespace EdgeFate

/-- A fate tells of a link: it has its id and its ends. The source of an entry edge is
its loop, which need not be what the link named. -/
def TellsOf (l : Link) : EdgeFate → Prop
  | .control e => e.id = l.effectiveId ∧ e.source = l.source ∧ e.target = l.target
  | .entry e => e.id = l.effectiveId ∧ e.target = l.target
  | .mixed edge source target | .dangling edge source target =>
    edge = l.effectiveId ∧ source = l.source ∧ target = l.target

/-- Links and fates can be paired, each used exactly once. -/
def Accounts (links : List Link) (fates : List EdgeFate) : Prop :=
  ∃ pairs : List (Link × EdgeFate), (pairs.map Prod.fst).Perm links ∧
    (pairs.map Prod.snd).Perm fates ∧ ∀ e ∈ pairs, e.2.TellsOf e.1

theorem accounts_map {α : Type} (xs : List α) (link : α → Link) (fate : α → EdgeFate)
    (htells : ∀ x ∈ xs, (fate x).TellsOf (link x)) :
    Accounts (xs.map link) (xs.map fate) := by
  refine ⟨xs.map fun x => (link x, fate x), ?_, ?_, List.forall_mem_map.mpr htells⟩
  · rw [List.map_map]
    exact .refl _
  · rw [List.map_map]
    exact .refl _

theorem Accounts.append {links more : List Link} {fates others : List EdgeFate}
    (ha : Accounts links fates) (hb : Accounts more others) :
    Accounts (links ++ more) (fates ++ others) := by
  obtain ⟨pairs, hlinks, hfates, htells⟩ := ha
  obtain ⟨pairs', hlinks', hfates', htells'⟩ := hb
  refine ⟨pairs ++ pairs', ?_, ?_, List.forall_mem_append.mpr ⟨htells, htells'⟩⟩
  · rw [List.map_append]
    exact hlinks.append hlinks'
  · rw [List.map_append]
    exact hfates.append hfates'

theorem Accounts.perm {links more : List Link} {fates others : List EdgeFate}
    (ha : Accounts links fates) (hlinks : links.Perm more) (hfates : fates.Perm others) :
    Accounts more others := by
  obtain ⟨pairs, hl, hf, htells⟩ := ha
  exact ⟨pairs, hl.trans hlinks, hf.trans hfates, htells⟩

end EdgeFate

namespace Diagnostic

/-- The fate that a finding reports, if it is about an edge that was dropped. -/
def edgeFate? : Diagnostic → Option EdgeFate
  | .mixedEdge edge source target => some (.mixed edge source target)
  | .danglingEdge edge source target => some (.dangling edge source target)
  | _ => none

theorem filterMap_edgeFate?_eq_nil {ds : List Diagnostic} {kind : DiagnosticKind}
    (hds : ∀ found ∈ ds, found.kind = kind) (hkind : kind ≠ .droppedEdge) :
    ds.filterMap edgeFate? = [] := by
  apply List.filterMap_eq_nil_iff.mpr
  intro found hfound
  have hother : found.kind ≠ .droppedEdge := hds found hfound ▸ hkind
  cases found <;> first | rfl | exact absurd rfl hother

end Diagnostic

namespace Conversion

open EdgePartition

/-- The fates that a conversion shows: the edges of its graph and the findings of its
report. -/
def edgeFates (c : Conversion) : List EdgeFate :=
  c.graph.levelEdges.map .control ++ c.graph.allEntryEdges.map .entry ++
    c.report.diagnostics.filterMap Diagnostic.edgeFate?

variable {p : Platform} {g : Registry} {d : Document} {l : Lifted} {t : Nested Record}
  {f : Nested Node}

/-- The findings about dropped edges are those for the mixed and the dangling links. -/
theorem filterMap_edgeFate?_report (hreport : l.harvest.OnlyUnsupported) :
    (assemble p l).2.diagnostics.filterMap Diagnostic.edgeFate? =
      ((partition p l).mixed.map fun link =>
        .mixed link.effectiveId link.source link.target) ++
      (partition p l).dangling.map fun link =>
        .dangling link.effectiveId link.source link.target := by
  have hdropped : (droppedEdges (partition p l)).filterMap Diagnostic.edgeFate? =
      ((partition p l).mixed.map fun link =>
        .mixed link.effectiveId link.source link.target) ++
      (partition p l).dangling.map fun link =>
        .dangling link.effectiveId link.source link.target := by
    rw [droppedEdges, List.filterMap_append, List.filterMap_map, List.filterMap_map,
      ← List.filterMap_eq_map, ← List.filterMap_eq_map]
    rfl
  rw [diagnostics_assemble, List.filterMap_append, List.filterMap_append, List.filterMap_append,
    Diagnostic.filterMap_edgeFate?_eq_nil hreport nofun,
    Diagnostic.filterMap_edgeFate?_eq_nil (kind_danglingReferences l.levels) nofun,
    Diagnostic.filterMap_edgeFate?_eq_nil (Assembly.kind_ofLevel p _ _ _) nofun, hdropped,
    List.nil_append, List.append_nil, List.append_nil]

namespace Rebuilt

variable (hrebuilt : Rebuilt g d l t f)

include hrebuilt

/-- The iteration nodes of a rebuilt document have different ids. -/
theorem nodup_iterationIds :
    ((f.levels Node.id .root).flatMap fun e => e.2.iterationIds).Nodup := by
  apply List.nodup_flatMap.mpr
  constructor
  · intro e he
    exact e.2.iterationIds_sublist_ids.nodup (hrebuilt.ids e he)
  · apply (List.pairwise_map.mp hrebuilt.levels).imp_of_mem
    intro _ _ he hother hne x hx hxother
    exact hne (hrebuilt.apart _ he _ hother x hx hxother).symm

/-- What is read off all levels, list by list. -/
theorem flatMap_levels_perm (hfresh : f.IsFresh) {β : Type} {φ : Graph → List β}
    (hempty : φ .empty = []) :
    ((f.levels Node.id .root).flatMap fun e =>
      φ (Assembly.graph g.platform (partition g.platform l) e.1
        (e.2.clean (presentIds l.levels)))).Perm
      ((assemble g.platform l).1.levels.flatMap φ) := by
  have hlevels := congrArg (List.flatMap fun e : Level × Nested Node =>
    φ (Assembly.graph g.platform (partition g.platform l) e.1 e.2))
    (f.levels_clean (presentIds l.levels) .root)
  rw [List.flatMap_map, Nested.levels, List.flatMap_append, List.flatMap_singleton] at hlevels
  rw [← hlevels, hrebuilt.graph, Graph.levels, List.flatMap_cons, List.flatMap_assoc,
    Graph.walk_eq]
  -- The outermost list comes last among the levels and first in the graph.
  apply List.perm_append_comm.trans
  apply List.Perm.append_left
  exact (Assembly.flatMap_inner_perm g.platform _ hempty
    (hfresh.clean (presentIds l.levels))).symm

/-- The edges of all levels, list by list. -/
theorem levelEdges_perm (hfresh : f.IsFresh) :
    ((f.levels Node.id .root).flatMap fun e =>
      Assembly.edges g.platform (partition g.platform l) e.1
        (Assembly.attached g.platform (partition g.platform l)
          (e.2.clean (presentIds l.levels)))).Perm (assemble g.platform l).1.levelEdges := by
  rw [Graph.levelEdges_eq]
  exact hrebuilt.flatMap_levels_perm hfresh (φ := Graph.edges) rfl

/-- The entry edges of all iteration nodes, list by list. -/
theorem allEntryEdges_perm (hfresh : f.IsFresh) :
    (((f.levels Node.id .root).flatMap fun e => e.2.iterationIds).flatMap
      (partition g.platform l).entryEdges).Perm (assemble g.platform l).1.allEntryEdges := by
  have hlevels := congrArg (List.flatMap fun e : Level × Nested Node =>
    e.2.iterationIds.flatMap (partition g.platform l).entryEdges)
    (f.levels_clean (presentIds l.levels) .root)
  simp only [List.flatMap_map, Nested.iterationIds_clean] at hlevels
  rw [Nested.levels, List.flatMap_append, List.flatMap_singleton] at hlevels
  rw [List.flatMap_assoc, ← hlevels, hrebuilt.graph, Graph.allEntryEdges, Graph.walk_eq,
    Assembly.graph]
  apply List.perm_append_comm.trans
  exact (Assembly.entryEdges_perm g.platform _ (hfresh.clean (presentIds l.levels))).symm

/-- The links kept on the levels become the edges of the levels. -/
theorem accounts_control (hfresh : f.IsFresh) :
    EdgeFate.Accounts
      ((f.levels Node.id .root).flatMap fun e => (partition g.platform l).onLevel e.1)
      ((assemble g.platform l).1.levelEdges.map .control) := by
  have hpairs := EdgeFate.accounts_map ((f.levels Node.id .root).flatMap fun e =>
      Assembly.sourced (partition g.platform l) e.1
        (Assembly.attached g.platform (partition g.platform l)
          (e.2.clean (presentIds l.levels)))) Prod.fst
    (fun entry => .control (entry.1.toEdge g.platform entry.2))
    fun entry _ => ⟨rfl, rfl, rfl⟩
  apply hpairs.perm
  · rw [List.map_flatMap]
    apply List.Perm.of_eq
    apply List.flatMap_congr
    intro e he
    apply Assembly.map_fst_sourced
    intro link hlink
    rw [Assembly.ids_attached, ← Nested.ids, Nested.ids_clean]
    exact (hrebuilt.ends_mem_ids he hlink).1
  · have hedges := (hrebuilt.levelEdges_perm hfresh).map EdgeFate.control
    simp only [Assembly.edges, List.map_flatMap, List.map_map] at hedges ⊢
    exact hedges

/-- The links sorted to the start of a loop become its entry edges. -/
theorem accounts_entry (hfresh : f.IsFresh) :
    EdgeFate.Accounts
      (((f.levels Node.id .root).flatMap fun e => e.2.iterationIds).flatMap fun owner =>
        (l.harvest.links.filter fun listed =>
          classOf g.platform l.placement listed = .entry owner).map Prod.snd)
      ((assemble g.platform l).1.allEntryEdges.map .entry) := by
  have hpairs := EdgeFate.accounts_map (((f.levels Node.id .root).flatMap fun e =>
      e.2.iterationIds).flatMap fun owner => (l.harvest.links.filter fun listed =>
        classOf g.platform l.placement listed = .entry owner).map fun listed =>
          (owner, listed.2)) Prod.snd
    (fun entry => .entry (entry.2.toEntryEdge entry.1)) fun entry _ => ⟨rfl, rfl⟩
  apply hpairs.perm
  · simp only [List.map_flatMap, List.map_map, Function.comp_def]
    exact .refl _
  · have hedges := (hrebuilt.allEntryEdges_perm hfresh).map EdgeFate.entry
    simp only [(sorts_partition g.platform l).entries, List.map_flatMap, List.map_map,
      Function.comp_def] at hedges ⊢
    exact hedges

/-- The listed links of the four classes are the listed links. -/
theorem listed_perm :
    (((f.levels Node.id .root).flatMap fun e => l.harvest.links.filter fun listed =>
        classOf g.platform l.placement listed = .internal e.1) ++
      (((f.levels Node.id .root).flatMap fun e => e.2.iterationIds).flatMap fun owner =>
        l.harvest.links.filter fun listed =>
          classOf g.platform l.placement listed = .entry owner) ++
      (l.harvest.links.filter fun listed => classOf g.platform l.placement listed = .mixed) ++
      l.harvest.links.filter fun listed =>
        classOf g.platform l.placement listed = .dangling).Perm l.harvest.links := by
  have hsorts := sorts_partition g.platform l
  have hlevels := flatMap_filter_perm (classOf g.platform l.placement) EdgeClass.internal
    (fun _ _ h => EdgeClass.internal.inj h) hrebuilt.levels l.harvest.links
  have howners := flatMap_filter_perm (classOf g.platform l.placement) EdgeClass.entry
    (fun _ _ h => EdgeClass.entry.inj h) hrebuilt.nodup_iterationIds l.harvest.links
  rw [List.flatMap_map] at hlevels
  apply (((hlevels.append howners).append_right _).append_right _).trans
  apply perm_of_classes
  intro listed hlisted
  cases hclass : classOf g.platform l.placement listed with
  | internal level =>
      have hmem : listed.2 ∈ (partition g.platform l).onLevel level := by
        rw [hsorts.internal]
        exact List.mem_map_of_mem (List.mem_filter.mpr ⟨hlisted, decide_eq_true hclass⟩)
      have hlevel := List.mem_map_of_mem (f := EdgeClass.internal) (hrebuilt.exists_level hmem)
      rw [decide_eq_true hlevel]
      simp
  | entry owner =>
      have hmem : listed.2.toEntryEdge owner ∈ (partition g.platform l).entryEdges owner := by
        rw [hsorts.entries]
        exact List.mem_map.mpr
          ⟨listed, List.mem_filter.mpr ⟨hlisted, decide_eq_true hclass⟩, rfl⟩
      have howner := List.mem_map_of_mem (f := EdgeClass.entry) (hrebuilt.exists_owner hmem).2
      rw [decide_eq_true howner]
      simp
  | mixed => simp
  | dangling => simp

/-- The links of the four classes are the links. -/
theorem classes_perm :
    (((f.levels Node.id .root).flatMap fun e => (partition g.platform l).onLevel e.1) ++
      (((f.levels Node.id .root).flatMap fun e => e.2.iterationIds).flatMap fun owner =>
        (l.harvest.links.filter fun listed =>
          classOf g.platform l.placement listed = .entry owner).map Prod.snd) ++
      (partition g.platform l).mixed ++ (partition g.platform l).dangling).Perm
        (l.harvest.links.map Prod.snd) := by
  have hsorts := sorts_partition g.platform l
  have hlisted := hrebuilt.listed_perm.map Prod.snd
  simp only [List.map_append, List.map_flatMap] at hlisted
  simp only [hsorts.internal, hsorts.mixed, hsorts.dangling]
  exact hlisted

end Rebuilt

/-- No captured link is lost and none is doubled: the links captured from the document
can be paired with the edges of all levels, the entry edges of all iteration nodes and
the findings about mixed and dangling edges, so that each is used exactly once and every
link meets a fate of its own id and ends. The filter by source that the assembly applies
to the links of a level keeps them all. -/
theorem ofDocument_accounts {c : Conversion} (hg : Registry.Derived p g)
    (hapart : d.LoopsApart g) (hc : ofDocument g d = .ok c) :
    ∃ t l, d.Unrolls g d.records t ∧ Lifted.ofDocument? g d = some l ∧
      EdgeFate.Accounts (d.capturedLinks g t) c.edgeFates ∧
        ∀ level ∈ l.levels, (Assembly.sourced (partition g.platform l) level.1 level.2).map
          Prod.fst = (partition g.platform l).onLevel level.1 := by
  have hbuiltIns := hg.usesBuiltIns
  obtain ⟨_, l, hlifted, hvalid, rfl⟩ := ofDocument_eq_ok_iff.mp hc
  obtain ⟨resolver, t, f, hunrolls, hdecodes, hmirrors⟩ :=
    Lifted.ofDocument?_mirrors hbuiltIns hlifted
  have hrebuilt := rebuilt_of_loopsApart hbuiltIns hapart hunrolls hdecodes hmirrors
    (Or.inr hvalid)
  have hfresh := hdecodes.isFresh hbuiltIns
  have hmixed := EdgeFate.accounts_map (partition g.platform l).mixed id
    (fun link => .mixed link.effectiveId link.source link.target) fun _ _ => ⟨rfl, rfl, rfl⟩
  have hdangling := EdgeFate.accounts_map (partition g.platform l).dangling id
    (fun link => .dangling link.effectiveId link.source link.target) fun _ _ => ⟨rfl, rfl, rfl⟩
  have hkept := (hrebuilt.accounts_control hfresh).append (hrebuilt.accounts_entry hfresh)
  refine ⟨t, l, hunrolls, hlifted, ?_, fun level hlevel => ?_⟩
  · rw [← hmirrors.map_snd_links]
    apply ((hkept.append hmixed).append hdangling).perm
    · rw [List.map_id, List.map_id]
      exact hrebuilt.classes_perm
    · rw [edgeFates, filterMap_edgeFate?_report hmirrors.report, ← List.append_assoc]
  · rw [hmirrors.levels] at hlevel
    obtain ⟨e, he, rfl⟩ := List.mem_map.mp hlevel
    exact Assembly.map_fst_sourced _ _ _ fun link hlink =>
      (hrebuilt.ends_mem_ids he hlink).1

theorem ofDocument_accounts_nestedLoops :
    Registry.Derived .coze (.withDefaults .coze) ∧
      Document.nestedLoops.LoopsApart (.withDefaults .coze) ∧
        ∃ c, ofDocument (.withDefaults .coze) Document.nestedLoops = .ok c ∧
          ∃ t l, Document.nestedLoops.Unrolls (.withDefaults .coze)
              Document.nestedLoops.records t ∧
            Lifted.ofDocument? (.withDefaults .coze) Document.nestedLoops = some l ∧
              EdgeFate.Accounts (Document.nestedLoops.capturedLinks (.withDefaults .coze) t)
                c.edgeFates ∧
                ∀ level ∈ l.levels, (Assembly.sourced
                  (partition (Registry.withDefaults .coze).platform l) level.1 level.2).map
                    Prod.fst =
                  (partition (Registry.withDefaults .coze).platform l).onLevel level.1 := by
  obtain ⟨c, hc⟩ := exists_of_isOk (g := .withDefaults .coze) (d := Document.nestedLoops)
    (by decide +kernel)
  exact ⟨.defaults, Document.loopsApart_nestedLoops, c, hc,
    ofDocument_accounts .defaults Document.loopsApart_nestedLoops hc⟩

end Conversion

end WorkflowGraph
