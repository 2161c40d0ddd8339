/-
# What becomes of the links of dropped bodies

The links of a body that is dropped are captured with all others, so that they are reported
with the level of the body they come from. But a link is sorted by what its ends mean in the
whole graph, not by the list it stands in. So a link of a dropped body dangles exactly if its
target is not in the graph, or its source is neither in the graph nor a start of the body
that the target lies in. Otherwise it is treated as a link of a lifted list and can become
an edge. The links of overlooked bodies are not captured, and nothing becomes of them.
-/

import WorkflowGraph.Proofs.EdgeFates
import WorkflowGraph.Proofs.ReportedRecords

namespace WorkflowGraph

/-! ## Where the links of a document stand -/

namespace Document

variable (g : Registry) (d : Document)

/-- All links of a document, wherever they stand. -/
def allLinks : List Link :=
  d.lists.flatMap fun entry => entry.2.links

/-- The links of the lists that are lifted. -/
def liftedLinks (t : Nested Record) : List Link :=
  d.links ++ (d.liftedBodies t).flatMap fun entry => entry.2.links

/-- The links of the bodies that are dropped. -/
def droppedLinks (t : Nested Record) : List Link :=
  (d.droppedBodies g t).flatMap fun entry => entry.2.links

/-- The links of the bodies that are overlooked. -/
def overlookedLinks (t : Nested Record) : List Link :=
  (d.overlookedBodies g t).flatMap fun entry => entry.2.links

/-- The links of a body, as they are listed on its level. -/
def listed (entry : String × Blocks) : List (Level × Link) :=
  entry.2.links.map fun link => (.body entry.1, link)

variable {g d}

/-- Every link of a document stands in a list that is lifted, dropped or overlooked. -/
theorem allLinks_perm (hg : g.UsesBuiltIns) {t : Nested Record}
    (ht : d.Unrolls g d.records t) (hids : (t.members.map Record.id).Nodup) :
    d.allLinks.Perm (d.liftedLinks t ++ (d.droppedLinks g t ++ d.overlookedLinks g t)) := by
  have hbodies := (bodies_perm hg ht hids).flatMap_right fun entry => entry.2.links
  rw [List.flatMap_append, List.flatMap_append] at hbodies
  rw [allLinks, lists, List.flatMap_cons, List.flatMap_map, liftedLinks, List.append_assoc]
  exact hbodies.append_left _

theorem map_snd_listed (bodies : List (String × Blocks)) :
    (bodies.flatMap listed).map Prod.snd = bodies.flatMap fun entry => entry.2.links := by
  rw [List.map_flatMap]
  refine List.flatMap_congr fun entry _ => ?_
  rw [listed, List.map_map]
  exact List.map_id _

end Document

namespace Lift

variable {g : Registry} {d : Document}

/-- The links of a body that is dropped are noted on the level of the body. -/
theorem collects_links (p : Platform) : Harvest.Collects p Harvest.links
    (fun owner links => links.map fun link => (.body owner, link)) fun _ => [] where
  empty := rfl
  append := fun _ _ => rfl
  links := fun _ _ => rfl
  start := fun _ _ => rfl
  block := fun _ _ _ => rfl

theorem notes_links (bodies : List (String × Blocks)) :
    Blocks.notes (fun owner links => links.map fun link => (.body owner, link))
      (fun _ => []) bodies = bodies.flatMap Document.listed := by
  refine List.flatMap_congr fun entry _ => ?_
  rw [List.flatMap_eq_nil_iff.mpr fun _ _ => rfl, List.append_nil, Document.listed]

theorem droppedLinks_perm (r : Record) :
    (droppedLinks g r).Perm ((Document.droppedAt g r).flatMap Document.listed) := by
  unfold droppedLinks Document.droppedAt
  split
  · exact List.Perm.nil
  · rw [← notes_links]
    exact Harvest.notes_ofUnliftedInner (collects_links g.platform) r.id r.blocks

/-- The links below a nesting are those of its lifted bodies and of the bodies dropped with its
records. -/
theorem listedLinks_perm_bodies {rs : List Record} {t : Nested Record} (ht : d.Unrolls g rs t) :
    (listedLinks g d t).Perm ((d.liftedBodies t).flatMap Document.listed ++
      (t.members.flatMap (Document.droppedAt g)).flatMap Document.listed) := by
  induction ht with
  | nil => exact List.Perm.nil
  | @leaf r _ t _ _ ih =>
    rw [listedLinks, Document.liftedBodies, Nested.members, List.flatMap_cons,
      List.flatMap_append]
    exact ((droppedLinks_perm r).append ih).trans (List.perm_append_comm_assoc _ _ _)
  | @loop r _ body inner t hopen _ _ ihInner ih =>
    obtain ⟨hloop, hbody⟩ := Document.opened?_eq_some_iff.mp hopen
    simp only [listedLinks, Document.liftedBodies, Nested.members, hbody, List.flatMap_cons,
      List.flatMap_append, List.flatMap_nil, Document.droppedAt_of_isLoop hloop,
      Option.toList_some, List.map_singleton, List.append_nil, List.nil_append, List.append_assoc]
    refine List.Perm.append_left _ ((ihInner.append ih).trans ?_)
    rw [List.append_assoc]
    exact (List.perm_append_comm_assoc _ _ _).append_left _

end Lift

namespace Lifted

variable {g : Registry} {d : Document} {l : Lifted} {t : Nested Record} {f : Nested Node}

/-- The links of a harvest are those of the lists that are lifted and of the bodies that are
dropped, each on the level of its list. -/
theorem Mirrors.links_perm (hmirrors : l.Mirrors g d t f) (ht : d.Unrolls g d.records t) :
    l.harvest.links.Perm
      ((d.links.map fun link => (.root, link)) ++ (d.liftedBodies t).flatMap Document.listed ++
        (d.droppedBodies g t).flatMap Document.listed) := by
  have horphans := Lift.notes_orphans (d := d) (Lift.collects_links g.platform) t
  rw [Lift.notes_links] at horphans
  rw [hmirrors.links, Document.droppedBodies, List.flatMap_append]
  have hinner := Lift.listedLinks_perm_bodies ht
  simp only [List.append_assoc]
  refine List.Perm.append_left _ ?_
  rw [← List.append_assoc]
  exact hinner.append horphans

end Lifted

/-! ## The fates of listed links -/

/-- What is paired with a list in two parts has two parts. -/
theorem exists_forall₂_append {α β : Type} {R : α → β → Prop} {xs ys : List α} {zs : List β}
    (h : List.Forall₂ R (xs ++ ys) zs) :
    ∃ front back, zs = front ++ back ∧ List.Forall₂ R xs front ∧ List.Forall₂ R ys back :=
  ⟨_, _, (List.take_append_drop xs.length zs).symm,
    (List.forall₂_take_append zs xs ys h.flip).flip,
    (List.forall₂_drop_append zs xs ys h.flip).flip⟩

namespace EdgeFate

/-- The link was reported as dangling. -/
def isDangling : EdgeFate → Bool
  | .dangling .. => true
  | _ => false

/-- Fates that account for links can be put into the order of the links. -/
theorem Accounts.exists_told {α : Type} {xs : List α} {link : α → Link} {fates : List EdgeFate}
    {R : α → EdgeFate → Prop} (haccounts : Accounts (xs.map link) fates)
    (htold : ∀ x ∈ xs, ∀ fate ∈ fates, fate.TellsOf (link x) → R x fate) :
    ∃ told : List EdgeFate, told.Perm fates ∧ List.Forall₂ R xs told := by
  obtain ⟨pairs, hlinks, hfates, htells⟩ := haccounts
  have hpairs : List.Forall₂ (fun l fate => fate ∈ fates ∧ fate.TellsOf l)
      (pairs.map Prod.fst) (pairs.map Prod.snd) := by
    rw [List.forall₂_map_left_iff, List.forall₂_map_right_iff, List.forall₂_same]
    exact fun e he => ⟨hfates.subset (List.mem_map_of_mem he), htells e he⟩
  obtain ⟨told, hpaired, hperm⟩ := List.perm_comp_forall₂ hlinks.symm hpairs
  rw [List.forall₂_map_left_iff] at hpaired
  refine ⟨told, hperm.trans hfates, ?_⟩
  exact ((List.forall₂_and_left _ _).mpr ⟨fun _ hx => hx, hpaired⟩).imp
    fun x fate h => htold x h.1 fate h.2.1 h.2.2

end EdgeFate

namespace Conversion

open EdgePartition

variable {p : Platform} {g : Registry} {d : Document} {l : Lifted} {t : Nested Record}
  {f : Nested Node} {resolver : Resolver}

/-- A fate tells of a listed link, and it is the one of its class. -/
def Told (g : Registry) (l : Lifted) (listed : Level × Link) (fate : EdgeFate) : Prop :=
  fate.TellsOf listed.2 ∧
    (fate.isDangling = true ↔ classOf g.platform l.placement listed = .dangling)

/-- Fates that account for listed links of some classes are told of them, if all of them are
dangling just as the classes are. -/
theorem exists_told_of_accounts {xs : List (Level × Link)} {fates : List EdgeFate} (dangles : Bool)
    (haccounts : EdgeFate.Accounts (xs.map Prod.snd) fates)
    (hclass : ∀ x ∈ xs, (dangles = true ↔ classOf g.platform l.placement x = .dangling))
    (hfates : ∀ fate ∈ fates, fate.isDangling = dangles) :
    ∃ told : List EdgeFate, List.Forall₂ (Told g l) xs told ∧ told.Perm fates := by
  obtain ⟨told, hperm, htold⟩ := haccounts.exists_told (R := Told g l)
    fun x hx fate hfate htells => ⟨htells, by rw [hfates fate hfate, hclass x hx]⟩
  exact ⟨told, htold, hperm⟩

/-- The listed links of a rebuilt document and the fates that its conversion shows can be
paired, each with the fate of its class. -/
theorem Rebuilt.exists_told (hrebuilt : Rebuilt g d l t f) (hfresh : f.IsFresh) :
    ∃ told : List EdgeFate, List.Forall₂ (Told g l) l.harvest.links told ∧ told.Perm
      (edgeFates ⟨g.platform, (assemble g.platform l).1, (assemble g.platform l).2⟩) := by
  have hsorts := sorts_partition g.platform l
  have hcontrol := hrebuilt.accounts_control hfresh
  have hentry := hrebuilt.accounts_entry hfresh
  have hmixed := EdgeFate.accounts_map (partition g.platform l).mixed id
    (fun link => .mixed link.effectiveId link.source link.target) fun _ _ => ⟨rfl, rfl, rfl⟩
  have hdangling := EdgeFate.accounts_map (partition g.platform l).dangling id
    (fun link => .dangling link.effectiveId link.source link.target) fun _ _ => ⟨rfl, rfl, rfl⟩
  simp only [hsorts.internal, ← List.map_flatMap] at hcontrol
  rw [← List.map_flatMap] at hentry
  rw [List.map_id, hsorts.mixed] at hmixed
  rw [List.map_id, hsorts.dangling] at hdangling
  obtain ⟨controls, hcontrols, hpermControl⟩ := exists_told_of_accounts (g := g) (l := l) false
    hcontrol (fun x hx => by
      obtain ⟨e, -, hin⟩ := List.mem_flatMap.mp hx
      simp [of_decide_eq_true (List.mem_filter.mp hin).2])
    (List.forall_mem_map.mpr fun _ _ => rfl)
  obtain ⟨entries, hentries, hpermEntry⟩ := exists_told_of_accounts (g := g) (l := l) false
    hentry (fun x hx => by
      obtain ⟨owner, -, hin⟩ := List.mem_flatMap.mp hx
      simp [of_decide_eq_true (List.mem_filter.mp hin).2])
    (List.forall_mem_map.mpr fun _ _ => rfl)
  obtain ⟨mixed, hmixeds, hpermMixed⟩ := exists_told_of_accounts (g := g) (l := l) false
    hmixed (fun x hx => by simp [of_decide_eq_true (List.mem_filter.mp hx).2])
    (List.forall_mem_map.mpr fun _ _ => rfl)
  obtain ⟨danglings, hdanglings, hpermDangling⟩ := exists_told_of_accounts (g := g) (l := l) true
    hdangling (fun x hx => by simp [of_decide_eq_true (List.mem_filter.mp hx).2])
    (List.forall_mem_map.mpr fun _ _ => rfl)
  have hall := List.rel_append (List.rel_append (List.rel_append hcontrols hentries) hmixeds)
    hdanglings
  obtain ⟨told, htold, hperm⟩ := List.perm_comp_forall₂ hrebuilt.listed_perm.symm hall
  refine ⟨told, htold, hperm.trans ?_⟩
  rw [edgeFates, filterMap_edgeFate?_report hrebuilt.mirrors.report, ← List.append_assoc]
  simp only [hsorts.mixed, hsorts.dangling]
  exact ((hpermControl.append hpermEntry).append hpermMixed).append hpermDangling

end Conversion

/-! ## Links that connect -/

/-- A placement of different ids: no id is that of a node and of a start, a start belongs to one
body, and the owner of a body with nodes is a node. -/
structure Placement.IsTidy (placement : Placement) : Prop where
  apart : ∀ id body other, (id, body) ∈ placement.starts → (id, other) ∉ placement.nodes
  once : ∀ id body other, (id, body) ∈ placement.starts → (id, other) ∈ placement.starts →
    body = other
  inside : ∀ id body, (id, body) ∈ placement.starts → ∃ owner, body = .body owner
  owned : ∀ id owner, (id, .body owner) ∈ placement.nodes →
    ∃ level, (owner, level) ∈ placement.nodes

/-- The ends of a link are placed so that it connects them: the target is a node, and the
source is a node or a start of the body of the target. -/
def Placement.Connects (placement : Placement) (l : Link) : Prop :=
  ∃ place, (l.target, place) ∈ placement.nodes ∧
    ((∃ other, (l.source, other) ∈ placement.nodes) ∨ (l.source, place) ∈ placement.starts)

/-- Where no two records share an id, a link dangles exactly if it does not connect, whatever
list it stands in. -/
theorem Link.classify_eq_dangling_iff {p : Platform} {placement : Placement}
    (htidy : placement.IsTidy) (level : Level) (l : Link) :
    l.classify p level placement = .dangling ↔ ¬ placement.Connects l := by
  rcases classify_cases p placement level l with ⟨hclass, htarget⟩ |
    ⟨owner, horigin, htarget, hclass⟩ | ⟨body, horigin, houtside, hclass⟩ |
    ⟨source, horigin, htarget, hclass⟩ |
    ⟨source, horigin, houtside, ⟨htarget, hclass⟩ | ⟨hnowhere, hclass⟩⟩ | ⟨hnone, hclass⟩
  · have hin := Placement.contains_iff.mp htarget
    have hconnects : placement.Connects l := ⟨_, hin, Or.inl (htidy.owned _ _ hin)⟩
    simp [hclass, hconnects]
  · have hstart := Placement.mem_starts_of_startBody?
      (Placement.startBody?_of_origin?_eq_start horigin)
    have hconnects : placement.Connects l :=
      ⟨_, Placement.contains_iff.mp htarget, Or.inr hstart⟩
    simp [hclass, hconnects]
  · have hstart := Placement.mem_starts_of_startBody?
      (Placement.startBody?_of_origin?_eq_start horigin)
    refine iff_of_true hclass ?_
    rintro ⟨place, hin, ⟨other, hnode⟩ | hother⟩
    · exact htidy.apart _ _ _ hstart hnode
    · obtain rfl := htidy.once _ _ _ hstart hother
      obtain ⟨owner, rfl⟩ := htidy.inside _ _ hstart
      have hout := houtside owner rfl
      rw [Placement.contains_iff.mpr hin] at hout
      cases hout
  · have hsource := Placement.mem_nodes_of_levelOf?
      (Placement.levelOf?_of_origin?_eq_node horigin)
    have hconnects : placement.Connects l :=
      ⟨_, Placement.contains_iff.mp htarget, Or.inl ⟨_, hsource⟩⟩
    simp [hclass, hconnects]
  · have hsource := Placement.mem_nodes_of_levelOf?
      (Placement.levelOf?_of_origin?_eq_node horigin)
    obtain ⟨place, hplace⟩ := Option.ne_none_iff_exists'.mp htarget
    have hconnects : placement.Connects l :=
      ⟨place, Placement.mem_nodes_of_levelOf? hplace, Or.inl ⟨_, hsource⟩⟩
    simp [hclass, hconnects]
  · refine iff_of_true hclass ?_
    rintro ⟨place, hin, -⟩
    exact (Placement.levelOf?_eq_none_iff level).mp hnowhere place hin
  · obtain ⟨hnodes, hstarts⟩ := Placement.origin?_eq_none_iff.mp hnone
    refine iff_of_true hclass ?_
    rintro ⟨place, -, ⟨other, hnode⟩ | hstart⟩
    · exact hnodes other hnode
    · exact hstarts place hstart

namespace Document

/-- A link connects records of a nesting: its target survives, and its source survives too or
is a loop-start record of the body that the target lies in. -/
def Connects (g : Registry) (t : Nested Record) (l : Link) : Prop :=
  ∃ place target, t.Lies Record.id .root place target ∧
    (g.survivor? place target).isSome = true ∧ target.id = l.target ∧
      ∃ other source, t.Lies Record.id .root other source ∧ source.id = l.source ∧
        ((g.survivor? other source).isSome = true ∨
          g.platform.isPseudoTag source.tag = true ∧ other = place ∧ place ≠ .root)

/-- Links in the list of the root, in a section without a loop and on an end node. -/
def strayLinks : Document :=
  ⟨[.bare "a" "5", .bare "b" "5",
    { Record.bare "end" "2" with blocks := some ⟨[], [⟨"lost", "a", none, "b", none⟩]⟩ }],
   [⟨"kept", "b", none, "end", none⟩],
   [("ghost", Blocks.mk [.bare "x" "5"]
     [⟨"inner", "a", none, "b", none⟩, ⟨"outer", "a", none, "x", none⟩])]⟩

/-- A link between two nodes in a section without a loop. -/
def ghostLink : Document :=
  ⟨[.bare "a" "5", .bare "b" "5"], [], [("ghost", Blocks.mk [] [⟨"e", "a", none, "b", none⟩])]⟩

end Document

namespace Lift

variable {g : Registry} {d : Document} {level : Level} {rs : List Record} {t : Nested Record}

/-- A loop-start record of a body is noted as a start of it. -/
theorem mem_listedStarts (ht : d.Unrolls g rs t) {owner : String} {r : Record}
    (hlies : t.Lies Record.id level (.body owner) r)
    (hpseudo : g.platform.isPseudoTag r.tag = true) : (r.id, owner) ∈ listedStarts g level t := by
  induction ht generalizing level with
  | nil => exact absurd hlies Nested.not_lies_nil
  | leaf _ _ ih =>
    rw [listedStarts]
    rcases Nested.lies_leaf.mp hlies with ⟨rfl, rfl⟩ | hlater
    · rw [markedStarts, if_pos hpseudo]
      exact List.mem_append_left _ (List.mem_singleton_self _)
    · exact List.mem_append_right _ (ih hlater)
  | loop hopen _ _ ihInner ih =>
    rw [listedStarts]
    rcases Nested.lies_loop.mp hlies with ⟨-, rfl⟩ | hin | hlater
    · have hloop := (Document.opened?_eq_some_iff.mp hopen).1
      cases hpseudo.symm.trans (Registry.isLoop_iff.mp hloop).1
    · exact List.mem_append_left _ (ihInner hin)
    · exact List.mem_append_right _ (ih hlater)

end Lift

namespace Conversion

variable {g : Registry} {d : Document} {l : Lifted} {t : Nested Record} {f : Nested Node}
  {resolver : Resolver}

/-- If no two records share an id, the placement of a lifted document is tidy. -/
theorem Rebuilt.isTidy (hg : g.UsesBuiltIns) (hrebuilt : Rebuilt g d l t f)
    (hdecodes : Lift.Decodes g resolver .root t f) (hids : (t.members.map Record.id).Nodup) :
    l.placement.IsTidy where
  apart id body other hstart hnode := by
    obtain ⟨r, hlies, hpseudo, hid⟩ := hrebuilt.mirrors.exists_of_mem_starts hstart
    obtain ⟨r', hlies', hsome, hid'⟩ := (hrebuilt.mirrors.mem_nodes_iff hg hdecodes).mp hnode
    obtain ⟨rfl, rfl⟩ := hlies.unique hids hlies' (hid.trans hid'.symm)
    rw [Lift.survivor?_eq_none_of_isPseudoTag hpseudo] at hsome
    cases hsome
  once _ _ _ hstart hstart' := hrebuilt.mirrors.eq_of_mem_starts hids hstart hstart'
  inside id body hstart := by
    obtain ⟨owner, -, hbody⟩ := l.mem_starts_iff.mp hstart
    exact ⟨owner, hbody⟩
  owned id owner hnode := by
    rw [l.placement_eq, Placement.mem_nodes_ofSteps_iff,
      hrebuilt.mirrors.node_mem_steps_iff] at hnode
    obtain ⟨e, he, hlevel, -⟩ := hnode
    obtain ⟨holder, hholder, howner⟩ :=
      List.mem_flatMap.mp (Nested.owner_mem_iterationIds he hlevel)
    refine ⟨holder.1, ?_⟩
    rw [l.placement_eq, Placement.mem_nodes_ofSteps_iff, hrebuilt.mirrors.node_mem_steps_iff]
    exact ⟨holder, hholder, rfl, holder.2.iterationIds_sublist_ids.subset howner⟩

/-- The starts of a lifted document are its loop-start records inside bodies. -/
theorem Rebuilt.mem_starts_iff (ht : d.Unrolls g d.records t) (hrebuilt : Rebuilt g d l t f)
    {id : String} {place : Level} : (id, place) ∈ l.placement.starts ↔ place ≠ .root ∧
      ∃ r, t.Lies Record.id .root place r ∧ g.platform.isPseudoTag r.tag = true ∧ r.id = id := by
  constructor
  · intro hstart
    obtain ⟨owner, -, rfl⟩ := l.mem_starts_iff.mp hstart
    exact ⟨nofun, hrebuilt.mirrors.exists_of_mem_starts hstart⟩
  · rintro ⟨hinside, r, hlies, hpseudo, rfl⟩
    cases place with
    | root => exact absurd rfl hinside
    | body owner =>
      refine l.mem_starts_iff.mpr ⟨owner, ?_, rfl⟩
      rw [hrebuilt.mirrors.starts]
      exact Lift.mem_listedStarts ht hlies hpseudo

/-- The placement of a lifted document connects the ends of the links that connect records of
its nesting. -/
theorem Rebuilt.connects_iff (hg : g.UsesBuiltIns) (ht : d.Unrolls g d.records t)
    (hrebuilt : Rebuilt g d l t f) (hdecodes : Lift.Decodes g resolver .root t f) (link : Link) :
    l.placement.Connects link ↔ Document.Connects g t link := by
  simp only [Placement.Connects, Document.Connects, hrebuilt.mirrors.mem_nodes_iff hg hdecodes,
    hrebuilt.mem_starts_iff ht]
  constructor
  · rintro ⟨place, ⟨target, htarget, hsome, hid⟩, ⟨other, source, hsource, hlives, hname⟩ |
      ⟨hinside, source, hsource, hpseudo, hname⟩⟩
    · exact ⟨place, target, htarget, hsome, hid, other, source, hsource, hname, Or.inl hlives⟩
    · exact ⟨place, target, htarget, hsome, hid, place, source, hsource, hname,
        Or.inr ⟨hpseudo, rfl, hinside⟩⟩
  · rintro ⟨place, target, htarget, hsome, hid, other, source, hsource, hname,
      hlives | ⟨hpseudo, rfl, hinside⟩⟩
    · exact ⟨place, ⟨target, htarget, hsome, hid⟩, Or.inl ⟨other, source, hsource, hlives, hname⟩⟩
    · exact ⟨other, ⟨target, htarget, hsome, hid⟩,
        Or.inr ⟨hinside, source, hsource, hpseudo, hname⟩⟩

/-- Every link of a list that is lifted or dropped has one fate. One of a dropped body is
reported as dangling exactly if it does not connect two records; otherwise it is treated as
if it stood in a lifted list. -/
structure TellsLinks (g : Registry) (d : Document) (t : Nested Record) (c : Conversion)
    (kept told : List EdgeFate) : Prop where
  links : d.allLinks.Perm (d.liftedLinks t ++ (d.droppedLinks g t ++ d.overlookedLinks g t))
  fates : c.edgeFates.Perm (kept ++ told)
  lifted : List.Forall₂ (fun link fate => fate.TellsOf link) (d.liftedLinks t) kept
  dropped : List.Forall₂ (fun link fate => fate.TellsOf link ∧
    (fate.isDangling = true ↔ ¬ Document.Connects g t link)) (d.droppedLinks g t) told

/-- Only the links of overlooked bodies have no fate. -/
theorem ofDocument_droppedLinks {p : Platform} (hg : Registry.Derived p g)
    (hcheck : d.check = .ok ()) (hacyclic : d.SectionsAcyclic g) (hids : d.DistinctIds) :
    ∃ t c kept told, d.Unrolls g d.records t ∧ ofDocument g d = .ok c ∧
      TellsLinks g d t c kept told := by
  have hbuiltIns := hg.usesBuiltIns
  obtain ⟨resolver, t, f, l, -, ht, hdecodes, -, hrebuilt, hc⟩ :=
    exists_rebuilt hbuiltIns hcheck hacyclic (hids.idsApart hbuiltIns)
  have hmembers := hids.idsApart hbuiltIns t ht
  obtain ⟨fates, htold, hfates⟩ := hrebuilt.exists_told (hdecodes.isFresh hbuiltIns)
  -- The links are listed in the order of the run; bring the fates into that of the bodies.
  obtain ⟨sorted, hsorted, hperm⟩ :=
    List.perm_comp_forall₂ (hrebuilt.mirrors.links_perm ht).symm htold
  obtain ⟨kept, told, rfl, hkept, hdropped⟩ := exists_forall₂_append hsorted
  refine ⟨t, _, kept, told, ht, hc, Document.allLinks_perm hbuiltIns ht hmembers,
    (hperm.trans hfates).symm, ?_, ?_⟩
  · have hlinks : d.liftedLinks t = ((d.links.map fun link => ((.root : Level), link)) ++
        (d.liftedBodies t).flatMap Document.listed).map Prod.snd := by
      rw [List.map_append, Document.map_snd_listed, List.map_map, Document.liftedLinks]
      exact congrArg (· ++ _) (List.map_id _).symm
    rw [hlinks, List.forall₂_map_left_iff]
    exact hkept.imp fun _ _ h => h.1
  · rw [Document.droppedLinks, ← Document.map_snd_listed, List.forall₂_map_left_iff]
    refine hdropped.imp fun listed fate h => ⟨h.1, h.2.trans ?_⟩
    rw [← hrebuilt.connects_iff hbuiltIns ht hdecodes]
    exact Link.classify_eq_dangling_iff (hrebuilt.isTidy hbuiltIns hdecodes hmembers) _ _

theorem ofDocument_droppedLinks_strayLinks :
    Registry.Derived .coze (.withDefaults .coze) ∧ Document.strayLinks.check = .ok () ∧
      Document.strayLinks.SectionsAcyclic (.withDefaults .coze) ∧
        Document.strayLinks.DistinctIds ∧
          ∃ t c kept told,
            Document.strayLinks.Unrolls (.withDefaults .coze) Document.strayLinks.records t ∧
            ofDocument (.withDefaults .coze) Document.strayLinks = .ok c ∧
            TellsLinks (.withDefaults .coze) Document.strayLinks t c kept told := by
  have hcheck : Document.strayLinks.check = .ok () := by decide +kernel
  have hacyclic : Document.strayLinks.SectionsAcyclic (.withDefaults .coze) :=
    Document.sectionsAcyclic_of_plain (by decide +kernel)
  have hids : Document.strayLinks.DistinctIds := by decide +kernel
  exact ⟨.defaults, hcheck, hacyclic, hids,
    ofDocument_droppedLinks .defaults hcheck hacyclic hids⟩

/-- The link of the section becomes an edge of the root level, and nothing is reported. -/
theorem ghostLink_kept :
    Document.ghostLink.check = .ok () ∧
      Document.ghostLink.SectionsAcyclic (.withDefaults .coze) ∧
        Document.ghostLink.DistinctIds ∧
          ∃ t c, Document.ghostLink.Unrolls (.withDefaults .coze) Document.ghostLink.records t ∧
            ofDocument (.withDefaults .coze) Document.ghostLink = .ok c ∧
            ∃ link ∈ Document.ghostLink.droppedLinks (.withDefaults .coze) t,
              (∃ edge ∈ c.graph.edges, edge.id = link.effectiveId ∧
                edge.source = link.source ∧ edge.target = link.target) ∧
              c.report.diagnostics = [] := by
  have hresult : (ofDocument (.withDefaults .coze) Document.ghostLink).toOption.map
      (fun c => (c.graph.edges.map fun edge => (edge.id, edge.source, edge.target),
        c.report.diagnostics)) = some ([("e", "a", "b")], []) := by
    decide +kernel
  obtain ⟨c, hc, hfound⟩ := Option.map_eq_some_iff.mp hresult
  obtain ⟨hedges, hnone⟩ := Prod.mk.inj hfound
  have hunrolls : Document.ghostLink.Unrolls (.withDefaults .coze) Document.ghostLink.records
      (.leaf (.bare "a" "5") (.leaf (.bare "b" "5") .nil)) :=
    .leaf rfl (.leaf rfl .nil)
  refine ⟨by decide +kernel, Document.sectionsAcyclic_of_plain (by decide +kernel),
    by decide +kernel, _, c, hunrolls, eq_ok_of_toOption_eq_some hc,
    ⟨"e", "a", none, "b", none⟩, by decide +kernel, ?_, hnone⟩
  have hedge : ("e", "a", "b") ∈ c.graph.edges.map fun edge =>
      (edge.id, edge.source, edge.target) := hedges ▸ List.mem_singleton_self _
  obtain ⟨edge, hmem, hends⟩ := List.mem_map.mp hedge
  obtain ⟨hid, hrest⟩ := Prod.mk.inj hends
  obtain ⟨hsource, htarget⟩ := Prod.mk.inj hrest
  exact ⟨edge, hmem, hid, hsource, htarget⟩

end Conversion

end WorkflowGraph
