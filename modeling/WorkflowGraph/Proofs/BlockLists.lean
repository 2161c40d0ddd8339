/-
# The block lists of a document

The records of a document stand in lists: the root, the bodies stored on records at any
depth, and the sections. A body is lifted with its loop, or it is dropped and its records
are reported, or it is overlooked: nothing looks at a body below a loop-start record, nor
at one below an end node. Every body has exactly one of the three fates.

If no two records share an id, wherever they stand, an id names the list that its record
stands in. Then no body is lifted twice, and the sections that are left over are those
that no loop opens.
-/

import Mathlib.Data.List.Nodup
import WorkflowGraph.Proofs.RepeatedLoops
import WorkflowGraph.Proofs.UniqueIds
import WorkflowGraph.Proofs.SettledRuns

namespace WorkflowGraph

/-! ## Bodies and their fates -/

mutual
/-- The bodies stored on the records of a list, at any depth, each with the id of the
record that it is stored on. -/
def Record.bodies : List Record → List (String × Blocks)
  | [] => []
  | ⟨id, _, _, _, _, _, blocks, _⟩ :: rs => Blocks.bodies id blocks ++ Record.bodies rs

/-- A body that may be absent, and the bodies stored inside it. -/
def Blocks.bodies (owner : String) : Option Blocks → List (String × Blocks)
  | none => []
  | some ⟨records, links⟩ => (owner, ⟨records, links⟩) :: Record.bodies records
end

mutual
/-- The bodies stored on the records of a list that is dropped which are dropped too. A
body on a loop-start record is not looked at. -/
def Record.droppedBodies (p : Platform) : List Record → List (String × Blocks)
  | [] => []
  | ⟨id, tag, _, _, _, _, blocks, _⟩ :: rs =>
    (if p.isPseudoTag tag then [] else Blocks.droppedBodies p id blocks)
      ++ Record.droppedBodies p rs

/-- A body that is dropped, if there is one, and the bodies that are dropped with it. -/
def Blocks.droppedBodies (p : Platform) (owner : String) : Option Blocks → List (String × Blocks)
  | none => []
  | some ⟨records, links⟩ => (owner, ⟨records, links⟩) :: Record.droppedBodies p records
end

mutual
/-- The bodies below the loop-start records of a list that is dropped. -/
def Record.overlookedBodies (p : Platform) : List Record → List (String × Blocks)
  | [] => []
  | ⟨id, tag, _, _, _, _, blocks, _⟩ :: rs =>
    (if p.isPseudoTag tag then Blocks.bodies id blocks else Blocks.overlookedBodies p blocks)
      ++ Record.overlookedBodies p rs

/-- The bodies below the loop-start records of a body that is dropped. -/
def Blocks.overlookedBodies (p : Platform) : Option Blocks → List (String × Blocks)
  | none => []
  | some ⟨records, _⟩ => Record.overlookedBodies p records
end

theorem perm_exchange {α : Type} (a b c d : List α) :
    (a ++ b ++ (c ++ d)).Perm (a ++ c ++ (b ++ d)) := by
  rw [List.append_assoc, List.append_assoc]
  exact (List.perm_append_comm_assoc b c d).append_left a

mutual
/-- Below a list that is dropped, every body is dropped or overlooked. -/
theorem Record.bodies_perm (p : Platform) : (rs : List Record) →
    (Record.bodies rs).Perm (Record.droppedBodies p rs ++ Record.overlookedBodies p rs)
  | [] => by
    rw [Record.bodies, Record.droppedBodies, Record.overlookedBodies]
    exact List.Perm.nil
  | ⟨id, tag, _, _, _, _, blocks, _⟩ :: rs => by
    have hinner := Blocks.bodies_perm p id blocks
    have hrest := Record.bodies_perm p rs
    rw [Record.bodies, Record.droppedBodies, Record.overlookedBodies]
    split
    · rw [List.nil_append]
      exact (hrest.append_left _).trans (List.perm_append_comm_assoc _ _ _)
    · exact (hinner.append hrest).trans (perm_exchange _ _ _ _)

theorem Blocks.bodies_perm (p : Platform) (owner : String) : (blocks : Option Blocks) →
    (Blocks.bodies owner blocks).Perm
      (Blocks.droppedBodies p owner blocks ++ Blocks.overlookedBodies p blocks)
  | none => by
    rw [Blocks.bodies, Blocks.droppedBodies, Blocks.overlookedBodies]
    exact List.Perm.nil
  | some ⟨records, links⟩ => by
    rw [Blocks.bodies, Blocks.droppedBodies, Blocks.overlookedBodies]
    exact (Record.bodies_perm p records).cons _
end

theorem Record.bodies_cons (r : Record) (rs : List Record) :
    Record.bodies (r :: rs) = Blocks.bodies r.id r.blocks ++ Record.bodies rs := by
  cases r
  rw [Record.bodies]

theorem Blocks.bodies_some (owner : String) (b : Blocks) :
    Blocks.bodies owner (some b) = (owner, b) :: Record.bodies b.records := by
  cases b
  rw [Blocks.bodies]

namespace Document

variable (g : Registry) (d : Document)

/-- The bodies that are dropped with a record of a lifted list: those on a record that is
decoded but cannot hold a body. -/
def droppedAt (r : Record) : List (String × Blocks) :=
  if g.platform.isPseudoTag r.tag ∨ g.kind? r.tag = some .finish ∨ g.isLoop r = true then []
  else Blocks.droppedBodies g.platform r.id r.blocks

/-- The bodies that are overlooked with a record of a lifted list. -/
def overlookedAt (r : Record) : List (String × Blocks) :=
  if g.platform.isPseudoTag r.tag ∨ g.kind? r.tag = some .finish then Blocks.bodies r.id r.blocks
  else if g.isLoop r = true then []
  else Blocks.overlookedBodies g.platform r.blocks

/-- The bodies that are lifted with the loops of a nesting. -/
def liftedBodies : Nested Record → List (String × Blocks)
  | .nil => []
  | .leaf _ rest => liftedBodies rest
  | .loop r inner rest =>
    (d.body? r).toList.map (fun body => (r.id, body)) ++ liftedBodies inner ++ liftedBodies rest

/-- The sections that no loop of a nesting opens. -/
def unopened (t : Nested Record) : Fields Blocks :=
  d.sections.entries.filter fun entry => !(Lift.openedSections d t).contains entry.1

/-- All bodies of a document: those on records, and the sections with what is stored in
them. -/
def bodies : List (String × Blocks) :=
  Record.bodies d.records ++
    d.sections.entries.flatMap fun entry => Blocks.bodies entry.1 (some entry.2)

/-- The bodies of a document that are dropped. -/
def droppedBodies (t : Nested Record) : List (String × Blocks) :=
  t.members.flatMap (droppedAt g) ++
    (d.unopened t).flatMap fun entry => Blocks.droppedBodies g.platform entry.1 (some entry.2)

/-- The bodies of a document that are neither lifted nor dropped. -/
def overlookedBodies (t : Nested Record) : List (String × Blocks) :=
  t.members.flatMap (overlookedAt g) ++
    (d.unopened t).flatMap fun entry => Blocks.overlookedBodies g.platform (some entry.2)

/-- The lists of a document, each with the level that it is on if it is lifted. -/
def lists : List (Level × Blocks) :=
  (.root, ⟨d.records, d.links⟩) :: d.bodies.map fun entry => (.body entry.1, entry.2)

/-- All records of a document, wherever they stand. -/
def allRecords : List Record :=
  d.lists.flatMap fun entry => entry.2.records

/-- No two records of a document share an id, wherever they stand. -/
def DistinctIds : Prop :=
  (d.allRecords.map Record.id).Nodup

instance : Decidable d.DistinctIds :=
  inferInstanceAs (Decidable (List.Nodup _))

variable {g d}

/-- The bodies stored on a record, if nothing is lifted with it, are dropped or overlooked. -/
theorem bodies_perm_of_closed {r : Record} (hclosed : d.opened? g r = none) :
    (Blocks.bodies r.id r.blocks).Perm (droppedAt g r ++ overlookedAt g r) := by
  unfold droppedAt overlookedAt
  by_cases hskipped : g.platform.isPseudoTag r.tag ∨ g.kind? r.tag = some .finish
  · rw [if_pos (or_assoc.mp (Or.inl hskipped)), if_pos hskipped]
    exact List.Perm.refl _
  · cases hloop : g.isLoop r with
    | true =>
      have hbody : r.blocks = none := by
        have h : d.body? r = none := by simpa [opened?, hloop] using hclosed
        cases hblocks : r.blocks with
        | none => rfl
        | some b => simp [body?, hblocks] at h
      simp [hskipped, hbody, Blocks.bodies]
    | false =>
      rw [if_neg (by simpa [or_assoc] using hskipped), if_neg hskipped, if_neg Bool.false_ne_true]
      exact Blocks.bodies_perm g.platform r.id r.blocks

/-- Nothing stored on a loop is dropped or overlooked. -/
theorem droppedAt_of_isLoop {r : Record} (hloop : g.isLoop r = true) : droppedAt g r = [] :=
  if_pos (Or.inr (Or.inr hloop))

theorem overlookedAt_of_isLoop (hg : g.UsesBuiltIns) {r : Record} (hloop : g.isLoop r = true) :
    overlookedAt g r = [] := by
  have hpseudo := (Registry.isLoop_iff.mp hloop).1
  have hkind := Registry.kind?_of_isLoop hg hloop
  simp [overlookedAt, hpseudo, hkind, hloop]

/-- The bodies that a section brings along. -/
def sectionBodies (d : Document) (key : String) : List (String × Blocks) :=
  Blocks.bodies key (Table.get? key d.sections)

/-- What is stored below a located body is stored on its record, or in the section that is
opened for it. -/
theorem bodies_of_body? {r : Record} {body : Blocks} (hbody : d.body? r = some body) :
    Blocks.bodies r.id r.blocks ++ (Lift.usedSection d r).flatMap (sectionBodies d) =
      (r.id, body) :: Record.bodies body.records := by
  cases hblocks : r.blocks with
  | some own =>
    obtain rfl : own = body := by simpa [body?, hblocks] using hbody
    simp [Lift.usedSection, hblocks, Blocks.bodies_some]
  | none =>
    have hsection : Table.get? r.id d.sections = some body := by
      simpa [body?, hblocks] using hbody
    simp [Lift.usedSection, hblocks, Table.hasKey_eq_isSome_get?, hsection, sectionBodies,
      Blocks.bodies, Blocks.bodies_some]

/-- The bodies below a list of records, with those of the sections that are opened on the
way, are lifted, dropped or overlooked. -/
theorem Unrolls.bodies_perm (hg : g.UsesBuiltIns) {rs : List Record} {t : Nested Record}
    (ht : d.Unrolls g rs t) :
    (Record.bodies rs ++ (Lift.openedSections d t).flatMap (sectionBodies d)).Perm
      (d.liftedBodies t ++ (t.members.flatMap (droppedAt g) ++
        t.members.flatMap (overlookedAt g))) := by
  induction ht with
  | nil => simp [Record.bodies, Lift.openedSections, liftedBodies, Nested.members]
  | @leaf r rs t hclosed _ ih =>
    have hhere := bodies_perm_of_closed hclosed
    rw [Record.bodies_cons, Lift.openedSections, liftedBodies, Nested.members, List.flatMap_cons,
      List.flatMap_cons, List.append_assoc]
    have hall := (hhere.append ih).trans (List.perm_append_comm_assoc _ _ _)
    exact hall.trans ((perm_exchange _ _ _ _).append_left _)
  | @loop r rs body inner t hopen _ _ ihInner ih =>
    obtain ⟨hloop, hbody⟩ := opened?_eq_some_iff.mp hopen
    have hlocated := bodies_of_body? hbody
    simp only [Record.bodies_cons, Lift.openedSections, liftedBodies, Nested.members, hbody,
      List.flatMap_cons, List.flatMap_append, droppedAt_of_isLoop hloop,
      overlookedAt_of_isLoop hg hloop, Option.toList_some, List.map_singleton, List.nil_append]
    classical
    refine List.perm_iff_count.mpr fun entry => ?_
    have hhere := congrArg (List.count entry) hlocated
    have hinner := ihInner.count_eq entry
    have hrest := ih.count_eq entry
    simp only [List.count_append, List.count_cons, List.count_nil] at hhere hinner hrest ⊢
    omega

/-! ## Documents in which no two records share an id -/

/-- A body on a record of a list is below the list, and so is everything below the body. -/
theorem mem_bodies_of_blocks {r : Record} {body : Blocks} (hblocks : r.blocks = some body)
    {rs : List Record} (hr : r ∈ rs) :
    (r.id, body) ∈ Record.bodies rs ∧ Record.bodies body.records ⊆ Record.bodies rs := by
  induction hr with
  | head rs =>
    rw [Record.bodies_cons, hblocks, Blocks.bodies_some]
    refine ⟨List.mem_append_left _ List.mem_cons_self, ?_⟩
    exact List.Subset.trans (List.subset_cons_self _ _) (List.subset_append_left _ _)
  | @tail other rest _ ih =>
    rw [Record.bodies_cons]
    have hlater := List.subset_append_right (Blocks.bodies other.id other.blocks)
      (Record.bodies rest)
    exact ⟨hlater ih.1, List.Subset.trans ih.2 hlater⟩

mutual
/-- Everything below a body that is below a list is below the list. -/
theorem bodies_subset_of_mem {entry : String × Blocks} : (rs : List Record) →
    entry ∈ Record.bodies rs → Record.bodies entry.2.records ⊆ Record.bodies rs
  | [], h => by
    rw [Record.bodies] at h
    cases h
  | ⟨id, _, _, _, _, _, blocks, _⟩ :: rs, h => by
    rw [Record.bodies] at h ⊢
    rcases List.mem_append.mp h with hhere | hlater
    · have hinside := bodies_subset_of_mem_option id blocks hhere
      exact List.Subset.trans hinside (List.subset_append_left _ _)
    · exact List.Subset.trans (bodies_subset_of_mem rs hlater) (List.subset_append_right _ _)

theorem bodies_subset_of_mem_option {entry : String × Blocks} (owner : String) :
    (blocks : Option Blocks) → entry ∈ Blocks.bodies owner blocks →
      Record.bodies entry.2.records ⊆ Blocks.bodies owner blocks
  | none, h => by
    rw [Blocks.bodies] at h
    cases h
  | some ⟨records, links⟩, h => by
    rw [Blocks.bodies] at h ⊢
    rcases List.mem_cons.mp h with rfl | hinside
    · exact List.subset_cons_self _ _
    · exact List.Subset.trans (bodies_subset_of_mem records hinside) (List.subset_cons_self _ _)
end

/-- Everything below a body of a document is a body of the document. -/
theorem bodies_subset_of_mem_bodies {entry : String × Blocks} (hentry : entry ∈ d.bodies) :
    Record.bodies entry.2.records ⊆ d.bodies := by
  intro below hbelow
  rcases List.mem_append.mp hentry with hroot | hsection
  · exact List.mem_append_left _ (bodies_subset_of_mem _ hroot hbelow)
  · obtain ⟨own, hown, hin⟩ := List.mem_flatMap.mp hsection
    refine List.mem_append_right _ (List.mem_flatMap.mpr ⟨own, hown, ?_⟩)
    exact bodies_subset_of_mem_option own.1 _ hin hbelow

/-- A body on a record of any list of a document is a body of the document. -/
theorem mem_bodies_of_mem_lists {entry : Level × Blocks} (hentry : entry ∈ d.lists) {r : Record}
    (hr : r ∈ entry.2.records) {body : Blocks} (hblocks : r.blocks = some body) :
    (r.id, body) ∈ d.bodies := by
  have hbelow := (mem_bodies_of_blocks hblocks hr).1
  rcases List.mem_cons.mp hentry with rfl | hbody
  · exact List.mem_append_left _ hbelow
  · obtain ⟨own, hown, rfl⟩ := List.mem_map.mp hbody
    exact bodies_subset_of_mem_bodies hown hbelow

/-- And so is every body below it. -/
theorem blocks_subset_bodies {entry : Level × Blocks} (hentry : entry ∈ d.lists) {r : Record}
    (hr : r ∈ entry.2.records) : Blocks.bodies r.id r.blocks ⊆ d.bodies := by
  cases hblocks : r.blocks with
  | none =>
    rw [Blocks.bodies]
    exact List.nil_subset _
  | some body =>
    have hbody := mem_bodies_of_mem_lists hentry hr hblocks
    rw [Blocks.bodies_some]
    exact List.cons_subset.mpr ⟨hbody, bodies_subset_of_mem_bodies hbody⟩

/-- The located body of a record is a list of the document. -/
theorem mem_lists_of_body? {entry : Level × Blocks} (hentry : entry ∈ d.lists) {r : Record}
    (hr : r ∈ entry.2.records) {body : Blocks} (hbody : d.body? r = some body) :
    (.body r.id, body) ∈ d.lists := by
  refine List.mem_cons_of_mem _ (List.mem_map.mpr ⟨(r.id, body), ?_, rfl⟩)
  cases hblocks : r.blocks with
  | some inline =>
    obtain rfl : inline = body := by simpa [body?, hblocks] using hbody
    exact mem_bodies_of_mem_lists hentry hr hblocks
  | none =>
    have hsection : Table.get? r.id d.sections = some body := by
      simpa [body?, hblocks] using hbody
    have hentry := Table.mem_of_get?_eq_some hsection
    refine List.mem_append_right _ (List.mem_flatMap.mpr ⟨_, hentry, ?_⟩)
    rw [Blocks.bodies_some]
    exact List.mem_cons_self

/-- The lists that are lifted are lists of the document, on their levels. -/
theorem Lists.exists_mem_lists {level : Level} {rs : List Record} (hlist : d.Lists g level rs) :
    ∃ body, (level, body) ∈ d.lists ∧ body.records = rs := by
  induction hlist with
  | root => exact ⟨_, List.mem_cons_self, rfl⟩
  | body _ hr hopen ih =>
    obtain ⟨own, hown, rfl⟩ := ih
    exact ⟨_, mem_lists_of_body? hown hr (opened?_eq_some_iff.mp hopen).2, rfl⟩

theorem DistinctIds.nodup_flatMap (hids : d.DistinctIds) :
    (d.lists.flatMap fun entry => entry.2.records.map Record.id).Nodup := by
  have h : (d.allRecords.map Record.id).Nodup := hids
  rwa [allRecords, List.map_flatMap] at h

/-- An id names the list that its record stands in. -/
theorem DistinctIds.eq_of_id_eq (hids : d.DistinctIds) {entry other : Level × Blocks}
    (hentry : entry ∈ d.lists) (hother : other ∈ d.lists) {r r' : Record}
    (hr : r ∈ entry.2.records) (hr' : r' ∈ other.2.records) (hid : r.id = r'.id) :
    entry = other ∧ r = r' := by
  have hlists := hids.nodup_flatMap
  obtain rfl := eq_of_mem_of_nodup_flatMap hlists hentry hother (List.mem_map_of_mem hr)
    (hid ▸ List.mem_map_of_mem hr')
  have hlist := (List.nodup_flatMap.mp hlists).1 entry hentry
  exact ⟨rfl, List.inj_on_of_nodup_map hlist hr hr' hid⟩

theorem DistinctIds.loopsApart (hids : d.DistinctIds) : d.LoopsApart g := by
  intro level rs hlist other rs' hlist' r hr r' hr' _ _ hid
  obtain ⟨body, hbody, rfl⟩ := hlist.exists_mem_lists
  obtain ⟨body', hbody', rfl⟩ := hlist'.exists_mem_lists
  have hsame := (hids.eq_of_id_eq hbody hbody' hr hr' hid).1
  exact (congrArg Prod.fst hsame).symm

theorem DistinctIds.nodup (hids : d.DistinctIds) {level : Level} {rs : List Record}
    (hlist : d.Lists g level rs) : (rs.map Record.id).Nodup := by
  obtain ⟨body, hbody, rfl⟩ := hlist.exists_mem_lists
  exact (List.nodup_flatMap.mp hids.nodup_flatMap).1 _ hbody

/-- The lists of a nesting are lifted lists of the document. -/
theorem Unrolls.lists_bodies {rs : List Record} {t : Nested Record} (ht : d.Unrolls g rs t) :
    ∀ level whole, d.Lists g level whole → rs ⊆ whole →
      ∀ e ∈ t.bodies Record.id, d.Lists g e.1 e.2.roots := by
  induction ht with
  | nil => nofun
  | leaf _ _ ih =>
    intro level whole hwhole hsub
    exact ih level whole hwhole fun r hr => hsub (List.mem_cons_of_mem _ hr)
  | loop hopen hinner _ ihInner ihRest =>
    intro level whole hwhole hsub e he
    have hlist := Lists.body hwhole (hsub List.mem_cons_self) hopen
    simp only [Nested.bodies, List.mem_append, List.mem_cons] at he
    rcases he with hin | rfl | hlater
    · exact ihInner _ _ hlist (fun _ hr => hr) e hin
    · exact hinner.roots_eq.symm ▸ hlist
    · exact ihRest level whole hwhole (fun r hr => hsub (List.mem_cons_of_mem _ hr)) e hlater

theorem Unrolls.lists {t : Nested Record} (ht : d.Unrolls g d.records t) :
    ∀ e ∈ t.levels Record.id .root, d.Lists g e.1 e.2.roots := by
  intro e he
  rcases List.mem_append.mp he with hin | hroot
  · exact ht.lists_bodies _ _ .root (fun _ hr => hr) e hin
  · obtain rfl := List.mem_singleton.mp hroot
    exact ht.roots_eq.symm ▸ Lists.root

/-- The members of the nesting of a document stand in its lists. -/
theorem Unrolls.exists_mem_lists {t : Nested Record} (ht : d.Unrolls g d.records t) {r : Record}
    (hr : r ∈ t.members) : ∃ entry ∈ d.lists, r ∈ entry.2.records := by
  have hlisted := (t.levels_perm_members Record.id .root).symm.subset hr
  obtain ⟨e, he, hin⟩ := List.mem_flatMap.mp hlisted
  obtain ⟨body, hbody, hrecords⟩ := (ht.lists e he).exists_mem_lists
  exact ⟨_, hbody, hrecords ▸ hin⟩

/-- The bodies that are dropped are bodies of the document. -/
theorem Unrolls.droppedBodies_subset {t : Nested Record} (ht : d.Unrolls g d.records t) :
    d.droppedBodies g t ⊆ d.bodies := by
  intro entry hentry
  rcases List.mem_append.mp hentry with hmember | hsection
  · obtain ⟨r, hr, hdropped⟩ := List.mem_flatMap.mp hmember
    obtain ⟨list, hlist, hin⟩ := ht.exists_mem_lists hr
    unfold droppedAt at hdropped
    split at hdropped
    · cases hdropped
    · refine blocks_subset_bodies hlist hin ?_
      exact (Blocks.bodies_perm _ _ _).symm.subset (List.mem_append_left _ hdropped)
  · obtain ⟨own, hown, hdropped⟩ := List.mem_flatMap.mp hsection
    refine List.mem_append_right _ (List.mem_flatMap.mpr ⟨own, List.mem_of_mem_filter hown, ?_⟩)
    exact (Blocks.bodies_perm _ _ _).symm.subset (List.mem_append_left _ hdropped)

/-- No two lists of a nesting are on one level. -/
theorem DistinctIds.nodup_levels (hg : g.UsesBuiltIns) (hids : d.DistinctIds)
    {t : Nested Record} (ht : d.Unrolls g d.records t) :
    ((t.levels Record.id .root).map Prod.fst).Nodup := by
  have hdecodes : Lift.Decodes g (.ofEntries []) .root t _ :=
    Lift.decodes_settled hg [] ht .root
  generalize Lift.settled g (.ofEntries []) [] .root t = f at hdecodes
  have hapart := hdecodes.loopsApart hg hids.loopsApart ht
  have hnodup := hdecodes.ids_nodup hg (fun _ _ => hids.nodup) ht
  have hlevels := (@Assembly.ofLevel_tableOf g.platform .empty f hapart (hdecodes.isFresh hg)
    (Or.inl hnodup)).2.1
  have hkeys := congrArg (List.map Prod.fst) (hdecodes.faces_bodies hg)
  simp only [List.map_map, Function.comp_def] at hkeys
  simpa [Nested.levels, hkeys] using hlevels

/-- If no two records of a document share an id, its nesting repeats none: no list is lifted
twice. -/
theorem DistinctIds.idsApart (hg : g.UsesBuiltIns) (hids : d.DistinctIds) : d.IdsApart g := by
  intro t ht
  have hperm := (t.levels_perm_members Record.id .root).map Record.id
  rw [List.map_flatMap] at hperm
  refine hperm.nodup_iff.mp (List.nodup_flatMap.mpr ⟨fun e he => hids.nodup (ht.lists e he), ?_⟩)
  refine (List.pairwise_map.mp (hids.nodup_levels hg ht)).imp_of_mem ?_
  intro e other he hother hne id hid hid'
  obtain ⟨r, hr, rfl⟩ := List.mem_map.mp hid
  obtain ⟨r', hr', hsame⟩ := List.mem_map.mp hid'
  obtain ⟨body, hbody, hroots⟩ := (ht.lists e he).exists_mem_lists
  obtain ⟨body', hbody', hroots'⟩ := (ht.lists other hother).exists_mem_lists
  have hlists := (hids.eq_of_id_eq hbody hbody' (hroots ▸ hr) (hroots' ▸ hr') hsame.symm).1
  exact hne (Prod.mk.inj hlists).1

/-! ## Every body has one fate -/

theorem usedSection_sublist (r : Record) : (Lift.usedSection d r).Sublist [r.id] := by
  unfold Lift.usedSection
  split
  · exact List.Sublist.refl _
  · exact List.nil_sublist _

/-- A section is opened by the record of its id, and by no other one. -/
theorem openedSections_sublist (t : Nested Record) :
    (Lift.openedSections d t).Sublist (t.members.map Record.id) := by
  induction t with
  | nil => exact List.Sublist.slnil
  | leaf r rest ih => exact ih.cons _
  | loop r inner rest ihInner ih =>
    rw [Lift.openedSections, Nested.members, List.map_cons, List.map_append, List.append_assoc]
    exact (usedSection_sublist r).append (ihInner.append ih)

theorem openedSections_subset_keys (t : Nested Record) :
    Lift.openedSections d t ⊆ d.sections.keys := by
  induction t with
  | nil => exact List.nil_subset _
  | leaf r rest ih => exact ih
  | loop r inner rest ihInner ih =>
    refine List.append_subset.mpr ⟨List.append_subset.mpr ⟨fun key hkey => ?_, ihInner⟩, ih⟩
    unfold Lift.usedSection at hkey
    split at hkey
    next hused =>
      obtain rfl := List.mem_singleton.mp hkey
      obtain ⟨entry, hentry, hname⟩ := List.any_eq_true.mp (Bool.and_eq_true_iff.mp hused).2
      exact beq_iff_eq.mp hname ▸ List.mem_map_of_mem hentry
    next => cases hkey

/-- The sections that are opened are those that the nesting names, each once. -/
theorem openedSections_perm {t : Nested Record} (hids : (t.members.map Record.id).Nodup) :
    ((d.sections.entries.filter fun entry => (Lift.openedSections d t).contains entry.1).flatMap
        fun entry => Blocks.bodies entry.1 (some entry.2)).Perm
      ((Lift.openedSections d t).flatMap (sectionBodies d)) := by
  have hnames : ((d.sections.entries.filter fun entry =>
      (Lift.openedSections d t).contains entry.1).map Prod.fst).Perm
        (Lift.openedSections d t) := by
    have hsub := (d.sections.entries.filter_sublist
      (p := fun entry => (Lift.openedSections d t).contains entry.1)).map Prod.fst
    refine (List.perm_ext_iff_of_nodup (hsub.nodup d.sections.nodup_keys)
      ((openedSections_sublist t).nodup hids)).mpr fun key => ⟨fun hkey => ?_, fun hkey => ?_⟩
    · obtain ⟨entry, hentry, rfl⟩ := List.mem_map.mp hkey
      simpa using (List.mem_filter.mp hentry).2
    · obtain ⟨entry, hentry, rfl⟩ := List.mem_map.mp (openedSections_subset_keys t hkey)
      exact List.mem_map_of_mem (List.mem_filter.mpr ⟨hentry, by simpa using hkey⟩)
  refine List.Perm.trans (List.Perm.of_eq ?_) (hnames.flatMap_right (sectionBodies d))
  rw [List.flatMap_map]
  refine List.flatMap_congr fun entry hentry => ?_
  rw [sectionBodies, Table.get?_of_mem (List.mem_filter.mp hentry).1]

/-- Every body of a document is lifted, dropped or overlooked, and has only one of these
fates. -/
theorem bodies_perm (hg : g.UsesBuiltIns) {t : Nested Record}
    (ht : d.Unrolls g d.records t) (hids : (t.members.map Record.id).Nodup) :
    d.bodies.Perm (d.liftedBodies t ++ (d.droppedBodies g t ++ d.overlookedBodies g t)) := by
  have hsections := (List.filter_append_perm (fun entry : String × Blocks =>
    (Lift.openedSections d t).contains entry.1) d.sections.entries).flatMap_right
      fun entry => Blocks.bodies entry.1 (some entry.2)
  rw [List.flatMap_append] at hsections
  have hopened := openedSections_perm (d := d) hids
  have hbelow := ht.bodies_perm hg
  have hunopened : ((d.unopened t).flatMap fun entry => Blocks.bodies entry.1 (some entry.2)).Perm
      (((d.unopened t).flatMap fun entry =>
          Blocks.droppedBodies g.platform entry.1 (some entry.2)) ++
        (d.unopened t).flatMap fun entry =>
          Blocks.overlookedBodies g.platform (some entry.2)) :=
    (List.Perm.flatMap_left _ fun entry _ =>
      Blocks.bodies_perm g.platform entry.1 (some entry.2)).trans
        (List.flatMap_append_perm _ _ _).symm
  classical
  refine List.perm_iff_count.mpr fun entry => ?_
  have hsections := hsections.count_eq entry
  have hopened := hopened.count_eq entry
  have hbelow := hbelow.count_eq entry
  have hunopened := hunopened.count_eq entry
  simp only [bodies, droppedBodies, overlookedBodies, unopened, List.count_append] at *
  omega

end Document

end WorkflowGraph
