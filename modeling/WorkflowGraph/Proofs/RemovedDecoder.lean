/-
# Losing a decoder

A registry without the decoder of a tag is compared with the registry that has it, on a
document in which every id occurs once. If the decoder is neither for loops nor for end
nodes, both walk the same nesting of records. On the root, the records of the tag become
placeholders, which keep their ids and their edges. In a body, they are left out, with the
edges that touch them, and each of these edges is reported.
-/

import WorkflowGraph.Proofs.LostNodes
import WorkflowGraph.Proofs.Shells
import WorkflowGraph.Proofs.UniqueIds

namespace WorkflowGraph

namespace Registry

variable {g : Registry} {tag : String} {r : Record}

theorem decode_unregister_self (ctx : DecodeContext) (htag : r.tag = tag) :
    (g.unregister tag).decode ctx r = .error (.notRegistered r.tag) := by
  have hnone : Table.get? r.tag (g.unregister tag).decoders = none := by
    simp [unregister, Table.get?_erase, htag]
  simp only [decode, decoder, hnone]
  rfl

theorem decode_unregister_of_ne (ctx : DecodeContext) (htag : r.tag ≠ tag) :
    (g.unregister tag).decode ctx r = g.decode ctx r := by
  have hsame : Table.get? r.tag (g.unregister tag).decoders = Table.get? r.tag g.decoders := by
    simp [unregister, Table.get?_erase, htag.symm]
  simp only [decode, decoder, hsame]

/-- A kind that the lost decoder does not announce is announced by the same decoders. -/
theorem kind?_unregister_eq_some_iff {kind : NodeKind} (hkind : g.kind? tag ≠ some kind)
    (other : String) : (g.unregister tag).kind? other = some kind ↔ g.kind? other = some kind := by
  unfold kind? at hkind ⊢
  by_cases htag : tag = other
  · subst htag
    simp [unregister, Table.get?_erase, hkind]
  · simp [unregister, Table.get?_erase, htag]

theorem face?_unregister_self (htag : r.tag = tag) : (g.unregister tag).face? r = none := by
  simp [face?, decode_unregister_self _ htag]

theorem face?_unregister_of_ne (htag : r.tag ≠ tag) :
    (g.unregister tag).face? r = g.face? r := by
  unfold face?
  rw [decode_unregister_of_ne _ htag]
  rfl

/-- Loops are not lost with a decoder of another kind. -/
theorem isLoop_unregister (hg : g.UsesBuiltIns) (hloop : g.kind? tag ≠ some .iteration)
    (r : Record) : (g.unregister tag).isLoop r = g.isLoop r := by
  by_cases htag : r.tag = tag
  · have hplain : g.isLoop r = false :=
      Bool.eq_false_iff.mpr fun h => hloop (htag ▸ kind?_of_isLoop hg h)
    rw [hplain, isLoop, face?_unregister_self htag]
    simp
  · rw [isLoop, isLoop, face?_unregister_of_ne htag]
    rfl

theorem survivor?_unregister_of_ne (htag : r.tag ≠ tag) (level : Level) :
    (g.unregister tag).survivor? level r = g.survivor? level r := by
  unfold survivor?
  rw [face?_unregister_of_ne htag]
  rfl

theorem survivor?_body_unregister_self (htag : r.tag = tag) (owner : String) :
    (g.unregister tag).survivor? (.body owner) r = none := by
  simp [survivor?, face?_unregister_self htag]

/-- On the root, everything but the loop-start nodes survives. -/
theorem isSome_survivor?_root (g : Registry) (r : Record) :
    (g.survivor? .root r).isSome = !g.platform.isPseudoTag r.tag := by
  unfold survivor?
  cases g.platform.isPseudoTag r.tag <;> cases g.face? r <;> simp

theorem shell?_unregister_of_ne (htag : r.tag ≠ tag) (level : Level) :
    (g.unregister tag).shell? level r = g.shell? level r := by
  have hdecode := fun ctx => decode_unregister_of_ne (g := g) ctx htag
  cases level <;>
    simp only [shell?, Lift.decodeRecord, decodeOrPlaceholder, Lift.context, hdecode] <;>
    rfl

end Registry

namespace Document

/-- A document with a code node on its root and another one in the body of its loop, where
it comes first and another block follows. -/
def codeAndLoop : Document :=
  ⟨[.bare "begin" "1", .bare "run" "5",
    { Record.bare "each" "21" with
      blocks := some ⟨[.bare "step" "5", .bare "sort" "22", .bare "pick" "8"],
        [⟨"", "step", none, "sort", none⟩, ⟨"", "sort", some "branch_0", "pick", none⟩]⟩ }],
   [⟨"", "begin", none, "run", none⟩, ⟨"", "run", none, "each", none⟩,
    ⟨"", "each", some "loop-function-inline-output", "step", none⟩], ∅⟩

variable {g other : Registry} {d : Document}

/-- The nesting of a list depends on the registry through the bodies that are opened. -/
theorem Unrolls.congr (hopen : ∀ r, d.opened? other r = d.opened? g r) {rs : List Record}
    {t : Nested Record} (ht : d.Unrolls g rs t) : d.Unrolls other rs t := by
  induction ht with
  | nil => exact .nil
  | leaf hclosed _ ih => exact .leaf ((hopen _).trans hclosed) ih
  | loop hbody _ _ ihInner ihRest => exact .loop ((hopen _).trans hbody) ihInner ihRest

theorem opened?_unregister (hg : g.UsesBuiltIns) {tag : String}
    (hloop : g.kind? tag ≠ some .iteration) (r : Record) :
    d.opened? (g.unregister tag) r = d.opened? g r := by
  rw [opened?, opened?, Registry.isLoop_unregister hg hloop]

theorem IdsApart.unregister (hg : g.UsesBuiltIns) {tag : String}
    (hloop : g.kind? tag ≠ some .iteration) (hids : d.IdsApart g) :
    d.IdsApart (g.unregister tag) :=
  fun t ht => hids t (ht.congr fun r => (opened?_unregister hg hloop r).symm)

theorem SectionsAcyclic.unregister {tag : String} (hloop : g.kind? tag ≠ some .iteration)
    (hacyclic : d.SectionsAcyclic g) : d.SectionsAcyclic (g.unregister tag) := by
  have hsame : ∀ used rs, d.Chain (g.unregister tag) used rs → d.Chain g used rs := by
    intro used rs hchain
    induction hchain with
    | root => exact .root
    | inside _ hr hkind hbody ih =>
        exact .inside ih hr ((Registry.kind?_unregister_eq_some_iff hloop _).mp hkind) hbody
  exact fun used rs hchain => hacyclic used rs (hsame used rs hchain)

/-- In a nested list, some loop owns the list. -/
theorem Unrolls.exists_owner {rs : List Record} {t : Nested Record} (ht : d.Unrolls g rs t)
    {level place : Level} {r : Record} (hlies : t.Lies Record.id level place r) :
    place = level ∨ ∃ above owner, t.Lies Record.id level above owner ∧
      g.isLoop owner = true ∧ place = .body owner.id := by
  induction ht generalizing level with
  | nil => exact absurd hlies Nested.not_lies_nil
  | leaf _ _ ih =>
      rcases Nested.lies_leaf.mp hlies with ⟨hplace, -⟩ | hrest
      · exact Or.inl hplace.symm
      · rcases ih hrest with hplace | ⟨above, owner, howner, hfound⟩
        · exact Or.inl hplace
        · exact Or.inr ⟨above, owner, Nested.lies_leaf.mpr (Or.inr howner), hfound⟩
  | @loop own _ _ _ _ hopen _ _ ihInner ihRest =>
      rcases Nested.lies_loop.mp hlies with ⟨hplace, -⟩ | hin | hrest
      · exact Or.inl hplace.symm
      · rcases ihInner hin with hplace | ⟨above, owner, howner, hfound⟩
        · exact Or.inr ⟨level, own, Nested.lies_loop.mpr (Or.inl ⟨rfl, rfl⟩),
            (opened?_eq_some_iff.mp hopen).1, hplace⟩
        · exact Or.inr ⟨above, owner, Nested.lies_loop.mpr (Or.inr (Or.inl howner)), hfound⟩
      · rcases ihRest hrest with hplace | ⟨above, owner, howner, hfound⟩
        · exact Or.inl hplace
        · exact Or.inr ⟨above, owner, Nested.lies_loop.mpr (Or.inr (Or.inr howner)), hfound⟩

/-- The records of a loop lie in its body. -/
theorem lies_of_mem_loopLists {level : Level} {t : Nested Record} {e : String × List Record}
    (he : e ∈ loopLists g t) {r : Record} (hr : r ∈ e.2) :
    t.Lies Record.id level (.body e.1) r := by
  induction t generalizing level with
  | nil => cases he
  | leaf own rest ih =>
      unfold loopLists at he
      split at he
      · rcases List.mem_cons.mp he with rfl | hrest
        · cases hr
        · exact Nested.lies_leaf.mpr (Or.inr (ih hrest))
      · exact Nested.lies_leaf.mpr (Or.inr (ih he))
  | loop own inner rest ihInner ihRest =>
      rw [Nested.lies_loop]
      rcases List.mem_cons.mp he with rfl | hlater
      · exact Or.inr (Or.inl (Nested.lies_iff.mpr (Or.inr ⟨rfl, hr⟩)))
      · rcases List.mem_append.mp hlater with hin | hrest
        · exact Or.inr (Or.inl (ihInner hin))
        · exact Or.inr (Or.inr (ihRest hrest))

end Document

namespace Nested

/-- The ids of the records of a tag in the bodies of a nesting. -/
def blocksTagged (tag : String) (t : Nested Record) : List String :=
  (t.bodies Record.id).flatMap fun e => (e.2.roots.filter fun r => r.tag == tag).map Record.id

theorem mem_blocksTagged {tag id : String} {t : Nested Record} : id ∈ t.blocksTagged tag ↔
    ∃ owner r, t.Lies Record.id .root (.body owner) r ∧ r.tag = tag ∧ r.id = id := by
  have hbody : ∀ e ∈ t.bodies Record.id, ∃ owner, e.1 = .body owner := by
    intro e he
    cases hlevel : e.1 with
    | root => exact absurd (hlevel ▸ List.mem_map_of_mem he) (t.root_not_mem_bodies Record.id)
    | body owner => exact ⟨owner, rfl⟩
  constructor
  · intro hid
    obtain ⟨e, he, hmem⟩ := List.mem_flatMap.mp hid
    obtain ⟨r, hr, rfl⟩ := List.mem_map.mp hmem
    obtain ⟨hin, htag⟩ := List.mem_filter.mp hr
    obtain ⟨owner, howner⟩ := hbody e he
    exact ⟨owner, r, lies_iff.mpr (Or.inl ⟨e, he, howner, hin⟩), beq_iff_eq.mp htag, rfl⟩
  · rintro ⟨owner, r, hlies, htag, rfl⟩
    rcases lies_iff.mp hlies with ⟨e, he, -, hin⟩ | ⟨hroot, -⟩
    · exact List.mem_flatMap.mpr ⟨e, he, List.mem_map_of_mem
        (List.mem_filter.mpr ⟨hin, beq_iff_eq.mpr htag⟩)⟩
    · cases hroot

end Nested

namespace Lift

open Document

variable {g : Registry} {d : Document} {tag : String} (hg : g.UsesBuiltIns)
  (hloop : g.kind? tag ≠ some .iteration)

theorem listedStarts_unregister (g : Registry) (tag : String) (level : Level)
    (t : Nested Record) : listedStarts (g.unregister tag) level t = listedStarts g level t := by
  induction t generalizing level with
  | nil => rfl
  | leaf r rest ih => exact congrArg (markedStarts g level r ++ ·) (ih level)
  | loop r inner rest ihInner ihRest => rw [listedStarts, listedStarts, ihInner, ihRest]

include hg hloop

theorem listedLinks_unregister (hfinish : g.kind? tag ≠ some .finish) (t : Nested Record) :
    listedLinks (g.unregister tag) d t = listedLinks g d t := by
  have hdropped : ∀ r, droppedLinks (g.unregister tag) r = droppedLinks g r := by
    intro r
    simp only [droppedLinks, Registry.isLoop_unregister hg hloop,
      Registry.kind?_unregister_eq_some_iff hfinish]
    rfl
  induction t with
  | nil => rfl
  | leaf r rest ih => rw [listedLinks, listedLinks, hdropped, ih]
  | loop r inner rest ihInner ihRest => rw [listedLinks, listedLinks, ihInner, ihRest]

theorem loopLists_unregister (t : Nested Record) :
    loopLists (g.unregister tag) t = loopLists g t := by
  induction t with
  | nil => rfl
  | leaf r rest ih => rw [loopLists, loopLists, Registry.isLoop_unregister hg hloop, ih]
  | loop r inner rest ihInner ihRest => rw [loopLists, loopLists, ihInner, ihRest]

end Lift

/-- The default decoders are for tags of nodes, not for those of loop-start nodes. -/
theorem Registry.isPseudoTag_of_kind? {p : Platform} {tag : String} {kind : NodeKind}
    (hkind : (withDefaults p).kind? tag = some kind) : p.isPseudoTag tag = false := by
  have htags : ∀ entry ∈ p.nodeTags, p.isPseudoTag entry.1 = false := by cases p <;> decide
  exact htags _ (mem_nodeTags_of_kindOfTag? ((kind?_withDefaults p tag).symm.trans hkind))

/-- The edge without the handle on which it leaves. -/
def Edge.unhandled (e : Edge) : Edge :=
  { e with sourceHandle := .default }

/-- The finding that a link was dropped for want of one of its ends. -/
def Link.danglingFinding (l : Link) : Diagnostic :=
  .danglingEdge l.effectiveId l.source l.target

/-- What is left of the inside of an iteration node when nodes are lost. -/
def Inside.without (lost : List String) (i : Inside) : Inside :=
  ⟨i.owner, Assembly.remaining lost i.nodes, i.edges.filter fun e => !e.touches lost,
    i.entries.filter fun e => !e.touches lost⟩

/-- The edges of all levels, and the edges into them, that touch lost nodes. -/
def Graph.edgesTouching (lost : List String) (g : Graph) : List EdgeFate :=
  (g.levelEdges.map EdgeFate.control ++ g.allEntryEdges.map EdgeFate.entry).filter
    (EdgeFate.touches lost)

namespace Conversion

open Document Nested Placement Assembly

/-- A conversion degrades to another one where blocks are lost, and nowhere else. -/
structure Degrades (lost : List String) (c c' : Conversion) : Prop where
  /-- The root has the same nodes in the same order. -/
  rootIds : c'.graph.nodes.map Node.id = c.graph.nodes.map Node.id
  /-- The root has the same edges in the same order, up to the handles they leave on. -/
  rootEdges : c'.graph.edges.map Edge.unhandled = c.graph.edges.map Edge.unhandled
  /-- Inside each iteration node, the lost blocks are missing with the edges that touch them,
  and everything else is as it was. -/
  insides : c'.graph.insides = c.graph.insides.map (Inside.without lost)
  /-- Each edge that is lost is reported as a dangling link with its id and ends. -/
  reported : ∃ links, EdgeFate.Accounts links (c.graph.edgesTouching lost) ∧
    (links.map Link.danglingFinding).Subperm c'.report.diagnostics

section Root

variable {g : Registry} {d : Document} {l : Lifted} {t : Nested Record} {f : Nested Node}
  (hrebuilt : Rebuilt g d l t f)

include hrebuilt

theorem Rebuilt.rootIds_eq : (assemble g.platform l).1.nodes.map Node.id = f.ids := by
  rw [hrebuilt.graph, Assembly.graph, ids_attached, ← Nested.ids, Nested.ids_clean]

/-- Up to their handles, the edges of the root are the links sorted to the root. -/
theorem Rebuilt.rootEdges_eq : (assemble g.platform l).1.edges.map Edge.unhandled =
    ((partition g.platform l).onLevel .root).map fun link =>
      ⟨link.effectiveId, link.source, .default, link.target, link.arrival, .control⟩ := by
  have hroot : (.root, f) ∈ f.levels Node.id .root :=
    List.mem_append_right _ (List.mem_singleton_self _)
  have hsourced := map_fst_sourced (partition g.platform l) .root
    (attached g.platform (partition g.platform l) (f.clean (presentIds l.levels)))
    fun link hlink => by
      rw [ids_attached, ← Nested.ids, Nested.ids_clean]
      exact (hrebuilt.ends_mem_ids hroot hlink).1
  rw [hrebuilt.graph, Assembly.graph, ← hsourced, List.map_map, edges, List.map_map]
  rfl

end Root

/-- A document is converted twice along one nesting of records: with the decoder of a tag,
and without it. -/
structure Paired (g : Registry) (tag : String) (d : Document) (t : Nested Record)
    (f f' : Nested Node) (l l' : Lifted) : Prop where
  builtIns : g.UsesBuiltIns
  loop : g.kind? tag ≠ some .iteration
  finish : g.kind? tag ≠ some .finish
  pseudo : g.platform.isPseudoTag tag = false
  unrolls : d.Unrolls g d.records t
  ids : (t.members.map Record.id).Nodup
  decodes : ∃ resolver, Lift.Decodes g resolver .root t f
  decodes' : ∃ resolver, Lift.Decodes (g.unregister tag) resolver .root t f'
  rebuilt : Rebuilt g d l t f
  rebuilt' : Rebuilt (g.unregister tag) d l' t f'

namespace Paired

variable {g : Registry} {tag : String} {d : Document} {t : Nested Record} {f f' : Nested Node}
  {l l' : Lifted} (hpaired : Paired g tag d t f f' l l')

/-- Outside the lost blocks, the same records survive. -/
theorem isSome_survivor? {level : Level} {r : Record} (hlies : t.Lies Record.id .root level r)
    (hkept : r.id ∉ t.blocksTagged tag) :
    ((g.unregister tag).survivor? level r).isSome = (g.survivor? level r).isSome := by
  by_cases htag : r.tag = tag
  · cases level with
    | root =>
        rw [Registry.isSome_survivor?_root, Registry.isSome_survivor?_root]
        rfl
    | body owner => exact absurd (mem_blocksTagged.mpr ⟨owner, r, hlies, htag, rfl⟩) hkept
  · rw [Registry.survivor?_unregister_of_ne htag]

include hpaired

/-- A record of another tag is no lost block. -/
theorem not_mem_blocksTagged {level : Level} {r : Record}
    (hlies : t.Lies Record.id .root level r) (htag : r.tag ≠ tag) :
    r.id ∉ t.blocksTagged tag := by
  intro hmem
  obtain ⟨owner, r', hlies', htag', hid⟩ := mem_blocksTagged.mp hmem
  obtain ⟨-, rfl⟩ := hlies.unique hpaired.ids hlies' hid.symm
  exact htag htag'

theorem mem_nodes_iff {id : String} {level : Level} : (id, level) ∈ l.placement.nodes ↔
    ∃ r, t.Lies Record.id .root level r ∧ (g.survivor? level r).isSome = true ∧ r.id = id := by
  obtain ⟨_, hdecodes⟩ := hpaired.decodes
  exact hpaired.rebuilt.mirrors.mem_nodes_iff hpaired.builtIns hdecodes

theorem mem_nodes'_iff {id : String} {level : Level} : (id, level) ∈ l'.placement.nodes ↔
    ∃ r, t.Lies Record.id .root level r ∧
      ((g.unregister tag).survivor? level r).isSome = true ∧ r.id = id := by
  obtain ⟨_, hdecodes⟩ := hpaired.decodes'
  exact hpaired.rebuilt'.mirrors.mem_nodes_iff
    (Registry.usesBuiltIns_unregister hpaired.builtIns tag) hdecodes

theorem mem_nodes'_iff_of_kept {id : String} (hkept : id ∉ t.blocksTagged tag)
    (level : Level) : (id, level) ∈ l'.placement.nodes ↔ (id, level) ∈ l.placement.nodes := by
  rw [hpaired.mem_nodes_iff, hpaired.mem_nodes'_iff]
  constructor
  · rintro ⟨r, hlies, hsome, rfl⟩
    exact ⟨r, hlies, isSome_survivor? hlies hkept ▸ hsome, rfl⟩
  · rintro ⟨r, hlies, hsome, rfl⟩
    exact ⟨r, hlies, (isSome_survivor? hlies hkept).symm ▸ hsome, rfl⟩

theorem mem_starts'_iff {id : String} {level : Level} :
    (id, level) ∈ l'.placement.starts ↔ (id, level) ∈ l.placement.starts := by
  rw [l.mem_starts_iff, l'.mem_starts_iff, hpaired.rebuilt.mirrors.starts,
    hpaired.rebuilt'.mirrors.starts, Lift.listedStarts_unregister]

/-- The second placement has lost the blocks of the tag. Ids occur once, so an id means
the same wherever it is looked up, and a lost block is nothing but that block. -/
theorem loses : Loses (t.blocksTagged tag) l.placement l'.placement := by
  refine ⟨fun id hkept level => ?_, fun id hkept level => ?_, fun id level => ?_,
    fun id hlost level hmem => ?_, fun id hlost level hmem => ?_, fun id hlost hmem => ?_,
    fun id hlost other hmem => ?_⟩
  · rw [Bool.eq_iff_iff, contains_iff, contains_iff]
    exact hpaired.mem_nodes'_iff_of_kept hkept level
  · refine nearest?_levelsOf_congr (hpaired.mem_nodes'_iff_of_kept hkept)
      (fun x y hx hy => ?_) level
    obtain ⟨_, hdecodes⟩ := hpaired.decodes'
    exact hpaired.rebuilt'.mirrors.eq_of_mem_nodes
      (Registry.usesBuiltIns_unregister hpaired.builtIns tag) hdecodes hpaired.ids hx hy
  · refine nearest?_levelsOf_congr (fun _ => hpaired.mem_starts'_iff) (fun x y hx hy => ?_) level
    exact hpaired.rebuilt'.mirrors.eq_of_mem_starts hpaired.ids hx hy
  all_goals obtain ⟨owner, r, hlies, htag, rfl⟩ := mem_blocksTagged.mp hlost
  · obtain ⟨r', hlies', hsome, hid⟩ := hpaired.mem_nodes'_iff.mp hmem
    obtain ⟨rfl, rfl⟩ := hlies.unique hpaired.ids hlies' hid.symm
    rw [Registry.survivor?_body_unregister_self htag] at hsome
    cases hsome
  · obtain ⟨r', hlies', hpseudo, hid⟩ := hpaired.rebuilt.mirrors.exists_of_mem_starts hmem
    obtain ⟨rfl, rfl⟩ := hlies.unique hpaired.ids hlies' hid.symm
    rw [htag, hpaired.pseudo] at hpseudo
    cases hpseudo
  · obtain ⟨r', hlies', -, hid⟩ := hpaired.mem_nodes_iff.mp hmem
    cases (hlies.unique hpaired.ids hlies' hid.symm).1
  · obtain ⟨r', hlies', -, -⟩ := hpaired.mem_nodes_iff.mp hmem
    rcases hpaired.unrolls.exists_owner hlies' with hplace | ⟨above, own, hown, hloop, hplace⟩
    · cases hplace
    · obtain ⟨-, rfl⟩ := hlies.unique hpaired.ids hown (Level.body.inj hplace)
      exact hpaired.loop (htag ▸ Registry.kind?_of_isLoop hpaired.builtIns hloop)

theorem partition'_eq : partition (g.unregister tag).platform l' =
    .ofLinks g.platform l'.placement l.harvest.links := by
  have hlinks : l'.harvest.links = l.harvest.links := by
    rw [hpaired.rebuilt.mirrors.links, hpaired.rebuilt'.mirrors.links,
      Lift.listedLinks_unregister hpaired.builtIns hpaired.loop hpaired.finish]
    rfl
  rw [partition, hlinks]
  rfl

theorem onLevel'_eq (level : Level) :
    (partition (g.unregister tag).platform l').onLevel level =
      ((partition g.platform l).onLevel level).filter fun link =>
        !link.touches (t.blocksTagged tag) := by
  rw [hpaired.partition'_eq]
  exact EdgePartition.onLevel_of_loses hpaired.loses _ level

theorem entryEdges'_eq (owner : String) :
    (partition (g.unregister tag).platform l').entryEdges owner =
      ((partition g.platform l).entryEdges owner).filter fun e =>
        !e.touches (t.blocksTagged tag) := by
  rw [hpaired.partition'_eq]
  exact EdgePartition.entryEdges_of_loses hpaired.loses _ owner

/-- Of the shells in the body of a loop, those of the lost blocks are missing. -/
theorem shells_eq {e : String × List Record} (he : e ∈ loopLists g t) :
    e.2.filterMap ((g.unregister tag).shell? (.body e.1)) =
      remaining (t.blocksTagged tag) (e.2.filterMap (g.shell? (.body e.1))) := by
  unfold remaining
  rw [List.filter_filterMap]
  apply List.filterMap_congr
  intro r hr
  have hlies : t.Lies Record.id .root (.body e.1) r := lies_of_mem_loopLists he hr
  have hid : ∀ n, g.shell? (.body e.1) r = some n → n.id = r.id :=
    fun n => Lift.id_of_shell? hpaired.builtIns
  by_cases htag : r.tag = tag
  · have hlost : r.id ∈ t.blocksTagged tag := mem_blocksTagged.mpr ⟨e.1, r, hlies, htag, rfl⟩
    rw [Lift.shell?_eq_none (Registry.usesBuiltIns_unregister hpaired.builtIns tag)
      (Registry.survivor?_body_unregister_self htag e.1)]
    cases hshell : g.shell? (.body e.1) r with
    | none => rfl
    | some n => simp [Option.filter, hid n hshell, hlost]
  · have hkept := hpaired.not_mem_blocksTagged hlies htag
    rw [Registry.shell?_unregister_of_ne htag]
    cases hshell : g.shell? (.body e.1) r with
    | none => rfl
    | some n => simp [Option.filter, hid n hshell, hkept]

/-- Inside the loops, the lost blocks are missing with the edges that touch them. -/
theorem insides_eq : (assemble (g.unregister tag).platform l').1.insides =
    (assemble g.platform l).1.insides.map (Inside.without (t.blocksTagged tag)) := by
  obtain ⟨_, hdecodes⟩ := hpaired.decodes
  obtain ⟨_, hdecodes'⟩ := hpaired.decodes'
  rw [hpaired.rebuilt.insides_eq hpaired.builtIns hdecodes,
    hpaired.rebuilt'.insides_eq (Registry.usesBuiltIns_unregister hpaired.builtIns tag) hdecodes',
    Lift.loopLists_unregister hpaired.builtIns hpaired.loop, List.map_map]
  apply List.map_congr_left
  intro e he
  rw [Function.comp_apply, hpaired.shells_eq he, insideOf, insideOf, Inside.without]
  dsimp only
  rw [← edges_remaining _ (hpaired.onLevel'_eq _), hpaired.entryEdges'_eq]
  rfl

/-- The nodes of the root keep their ids and their places. -/
theorem rootIds_eq : (assemble (g.unregister tag).platform l').1.nodes.map Node.id =
    (assemble g.platform l).1.nodes.map Node.id := by
  obtain ⟨_, hdecodes⟩ := hpaired.decodes
  obtain ⟨_, hdecodes'⟩ := hpaired.decodes'
  rw [hpaired.rebuilt.rootIds_eq, hpaired.rebuilt'.rootIds_eq,
    hdecodes.ids_eq hpaired.builtIns,
    hdecodes'.ids_eq (Registry.usesBuiltIns_unregister hpaired.builtIns tag)]
  refine congrArg (List.map Record.id) (List.filter_congr fun r _ => ?_)
  rw [Registry.isSome_survivor?_root, Registry.isSome_survivor?_root]
  rfl

/-- The edges of the root keep everything but their handles. -/
theorem rootEdges_eq :
    (assemble (g.unregister tag).platform l').1.edges.map Edge.unhandled =
      (assemble g.platform l).1.edges.map Edge.unhandled := by
  rw [hpaired.rebuilt.rootEdges_eq, hpaired.rebuilt'.rootEdges_eq, hpaired.partition'_eq,
    EdgePartition.onLevel_root_of_loses hpaired.loses]
  rfl

/-- The links behind the edges that touch lost blocks. -/
def lostLinks (tag : String) (g : Registry) (t : Nested Record) (f : Nested Node) (l : Lifted) :
    List Link :=
  (((f.levels Node.id .root).flatMap fun e => (partition g.platform l).onLevel e.1) ++
    (((f.levels Node.id .root).flatMap fun e => e.2.iterationIds).flatMap fun owner =>
      (l.harvest.links.filter fun listed =>
        EdgePartition.classOf g.platform l.placement listed = .entry owner).map Prod.snd)).filter
    fun link => link.touches (t.blocksTagged tag)

theorem accounts_lostLinks : EdgeFate.Accounts (lostLinks tag g t f l)
    ((assemble g.platform l).1.edgesTouching (t.blocksTagged tag)) := by
  obtain ⟨_, hdecodes⟩ := hpaired.decodes
  have hfresh := hdecodes.isFresh hpaired.builtIns
  unfold lostLinks Graph.edgesTouching
  rw [List.filter_append, List.filter_append]
  refine ((hpaired.rebuilt.accounts_control hfresh).filter ?_).append
    ((hpaired.rebuilt.accounts_entry hfresh).filter ?_)
  · intro link _ fate hfate htells
    obtain ⟨e, -, rfl⟩ := List.mem_map.mp hfate
    obtain ⟨-, hsource, htarget⟩ := htells
    simp [EdgeFate.touches, Edge.touches, Link.touches, hsource, htarget]
  · intro link hlink fate hfate htells
    obtain ⟨e, he, rfl⟩ := List.mem_map.mp hfate
    obtain ⟨-, htarget⟩ := htells
    obtain ⟨owner, -, hlinks⟩ := List.mem_flatMap.mp hlink
    obtain ⟨listed, hlisted, rfl⟩ := List.mem_map.mp hlinks
    obtain ⟨owner', -, hentries⟩ :=
      List.mem_flatMap.mp ((hpaired.rebuilt.allEntryEdges_perm hfresh).mem_iff.mpr he)
    rw [(sorts_partition g.platform l).entries] at hentries
    obtain ⟨listed', hlisted', rfl⟩ := List.mem_map.mp hentries
    have hfrom := Link.not_lost_of_entry hpaired.loses
      (of_decide_eq_true (List.mem_filter.mp hlisted).2)
    have hfrom' := Link.not_lost_of_entry hpaired.loses
      (of_decide_eq_true (List.mem_filter.mp hlisted').2)
    simp only [Link.toEntryEdge] at htarget
    simp [EdgeFate.touches, Edge.touches, Link.touches, Link.toEntryEdge, htarget, hfrom.1,
      hfrom'.2]

/-- The links behind lost edges dangle in the second run. -/
theorem lostLinks_subperm_dangling :
    (lostLinks tag g t f l).Subperm (partition (g.unregister tag).platform l').dangling := by
  have hkept := ((List.sublist_append_left _ _).trans
    (List.sublist_append_left _ _)).subperm.trans hpaired.rebuilt.classes_perm.subperm
  have htouching := hkept.filter fun link => link.touches (t.blocksTagged tag)
  rw [List.filter_map] at htouching
  rw [hpaired.partition'_eq]
  exact htouching.trans
    (EdgePartition.touched_sublist_dangling hpaired.loses l.harvest.links).subperm

theorem degrades : Degrades (t.blocksTagged tag)
    ⟨g.platform, (assemble g.platform l).1, (assemble g.platform l).2⟩
    ⟨g.platform, (assemble (g.unregister tag).platform l').1,
      (assemble (g.unregister tag).platform l').2⟩ where
  rootIds := hpaired.rootIds_eq
  rootEdges := hpaired.rootEdges_eq
  insides := hpaired.insides_eq
  reported := by
    refine ⟨lostLinks tag g t f l, hpaired.accounts_lostLinks, ?_⟩
    obtain ⟨links, hperm, hsub⟩ := hpaired.lostLinks_subperm_dangling
    refine ⟨links.map Link.danglingFinding, hperm.map _, ?_⟩
    rw [diagnostics_assemble, droppedEdges, List.append_assoc]
    exact ((hsub.map Link.danglingFinding).trans (List.sublist_append_right _ _)).trans
      ((List.sublist_append_left _ _).trans (List.sublist_append_right _ _))

end Paired

/-- In a document in which every id occurs once, losing a decoder that is neither for loops
nor for end nodes degrades the conversion locally: it succeeds with and without the
decoder, the root keeps its nodes and edges, and the bodies lose the blocks of the tag with
the edges that touch them, each of which is reported. -/
theorem ofDocument_unregister (p : Platform) {d : Document} {tag : String} {kind : NodeKind}
    (hcheck : d.check = .ok ()) (hacyclic : d.SectionsAcyclic (.withDefaults p))
    (hids : d.IdsApart (.withDefaults p)) (hkind : (Registry.withDefaults p).kind? tag = some kind)
    (hloop : kind ≠ .iteration) (hfinish : kind ≠ .finish) :
    ∃ t c c', d.Unrolls (.withDefaults p) d.records t ∧ ofDocument (.withDefaults p) d = .ok c ∧
      ofDocument ((Registry.withDefaults p).unregister tag) d = .ok c' ∧
        Degrades (t.blocksTagged tag) c c' := by
  have hg := (Registry.Derived.defaults (p := p)).usesBuiltIns
  have hother : ∀ k, kind ≠ k → (Registry.withDefaults p).kind? tag ≠ some k := fun k hne h =>
    hne (Option.some.inj (hkind.symm.trans h))
  have hplain := hother _ hloop
  obtain ⟨resolver, t, f, l, -, hunrolls, hdecodes, -, hrebuilt, hc⟩ :=
    exists_rebuilt hg hcheck hacyclic hids
  obtain ⟨resolver', t', f', l', -, hunrolls', hdecodes', -, hrebuilt', hc'⟩ :=
    exists_rebuilt (Registry.usesBuiltIns_unregister hg tag) hcheck (hacyclic.unregister hplain)
      (hids.unregister hg hplain)
  obtain rfl : t' = t := hunrolls'.unique
    (hunrolls.congr fun r => opened?_unregister hg hplain r)
  have hpaired : Paired (.withDefaults p) tag d t' f f' l l' := {
    builtIns := hg
    loop := hplain
    finish := hother _ hfinish
    pseudo := by
      rw [Registry.Derived.defaults.platform_eq]
      exact Registry.isPseudoTag_of_kind? hkind
    unrolls := hunrolls
    ids := hids t' hunrolls
    decodes := ⟨resolver, hdecodes⟩
    decodes' := ⟨resolver', hdecodes'⟩
    rebuilt := hrebuilt
    rebuilt' := hrebuilt' }
  exact ⟨t', _, _, hunrolls, hc, hc', hpaired.degrades⟩

theorem ofDocument_unregister_codeAndLoop :
    codeAndLoop.check = .ok () ∧ codeAndLoop.SectionsAcyclic (.withDefaults .coze) ∧
      codeAndLoop.IdsApart (.withDefaults .coze) ∧
        (Registry.withDefaults .coze).kind? "5" = some .code ∧
          ∃ c c', ofDocument (.withDefaults .coze) codeAndLoop = .ok c ∧
            ofDocument ((Registry.withDefaults .coze).unregister "5") codeAndLoop = .ok c' ∧
              Degrades ["step"] c c' ∧ (c.graph.edgesTouching ["step"]).length = 2 := by
  have hcheck : codeAndLoop.check = .ok () := by decide +kernel
  have hacyclic := codeAndLoop.sectionsAcyclic_of_eq_nil (g := .withDefaults .coze) rfl
  have hids : codeAndLoop.IdsApart (.withDefaults .coze) :=
    idsApart_of_unroll? 8 (by decide +kernel)
  have hkind : (Registry.withDefaults .coze).kind? "5" = some .code := by decide +kernel
  obtain ⟨t, c, c', ht, hc, hc', hdegrades⟩ :=
    ofDocument_unregister .coze hcheck hacyclic hids hkind nofun nofun
  have hblocks : (codeAndLoop.unroll? (.withDefaults .coze) 8 codeAndLoop.records).map
      (blocksTagged "5") = some ["step"] := by decide +kernel
  obtain ⟨u, hu, htagged⟩ := Option.map_eq_some_iff.mp hblocks
  obtain rfl := ht.unique (unrolls_of_unroll? 8 _ _ hu)
  have htouching : (ofDocument (.withDefaults .coze) codeAndLoop).toOption.map
      (fun c => (c.graph.edgesTouching ["step"]).length) = some 2 := by decide +kernel
  rw [hc] at htouching
  exact ⟨hcheck, hacyclic, hids, hkind, c, c', hc, hc', htagged ▸ hdegrades,
    Option.some.inj htouching⟩

end Conversion

end WorkflowGraph
