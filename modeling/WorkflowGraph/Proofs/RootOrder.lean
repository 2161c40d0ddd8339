/-
# Records of the root in another order

A document whose root lists its records in another order unrolls to a nesting with the same
entries in that order. What is read off a nesting entry by entry comes out in another order
then, and nothing else changes: the document passes its check or not as before, its chains
of loops are the same, and it calls for the same entries of the resolver.
-/

import Mathlib.Data.List.Perm.Basic
import WorkflowGraph.Proofs.CheckedDocuments
import WorkflowGraph.Proofs.Captures
import WorkflowGraph.Proofs.UniqueIds

namespace WorkflowGraph

namespace Nested

variable {α β : Type}

/-- The members of the outermost list, each with the list inside it if it is a loop. -/
def entries : Nested α → List (α × Option (Nested α))
  | nil => []
  | leaf a rest => (a, none) :: rest.entries
  | loop a inner rest => (a, some inner) :: rest.entries

/-- Two nestings have the same entries in some order. The lists inside are the same. -/
def Reorders (t u : Nested α) : Prop :=
  t.entries.Perm u.entries

/-- All members in document order, each with the level it lies on. -/
def located (name : α → String) : Level → Nested α → List (Level × α)
  | _, nil => []
  | level, leaf a rest => (level, a) :: rest.located name level
  | level, loop a inner rest =>
    (level, a) :: (inner.located name (.body (name a)) ++ rest.located name level)

theorem mem_located_iff {name : α → String} {level place : Level} {t : Nested α} {a : α} :
    (place, a) ∈ t.located name level ↔ t.Lies name level place a := by
  induction t generalizing level with
  | nil => simp [located]
  | leaf b rest ih => simp [located, ih, eq_comm]
  | loop b inner rest ihInner ihRest => simp [located, ihInner, ihRest, eq_comm]

theorem map_snd_located (name : α → String) (t : Nested α) :
    ∀ level, (t.located name level).map Prod.snd = t.members := by
  induction t with
  | nil => exact fun _ => rfl
  | leaf a rest ih => exact fun level => congrArg (a :: ·) (ih level)
  | loop a inner rest ihInner ihRest =>
      intro level
      rw [located, List.map_cons, List.map_append, ihInner, ihRest, members]

theorem mem_members_of_mem_located {name : α → String} {level : Level} {t : Nested α}
    {e : Level × α} (he : e ∈ t.located name level) : e.2 ∈ t.members := by
  rw [← t.map_snd_located name level]
  exact List.mem_map_of_mem he

theorem exists_lies (name : α → String) (level : Level) {t : Nested α} {a : α}
    (ha : a ∈ t.members) : ∃ place, t.Lies name level place a := by
  rw [← t.map_snd_located name level] at ha
  obtain ⟨⟨place, a⟩, hlocated, rfl⟩ := List.mem_map.mp ha
  exact ⟨place, mem_located_iff.mp hlocated⟩

/-- Where no two members share a name, a member is picked exactly if it is on its level. -/
theorem Lies.mem_picked_iff {name : α → String} {level place : Level} {t : Nested α} {a : α}
    (hnodup : (t.members.map name).Nodup) (hlies : t.Lies name level place a)
    (keep : Level × α → Bool) :
    a ∈ ((t.located name level).filter keep).map Prod.snd ↔ keep (place, a) = true := by
  constructor
  · intro hpicked
    obtain ⟨⟨other, a⟩, hkept, rfl⟩ := List.mem_map.mp hpicked
    obtain ⟨hlocated, hkeep⟩ := List.mem_filter.mp hkept
    obtain rfl := ((mem_located_iff.mp hlocated).unique hnodup hlies rfl).1
    exact hkeep
  · intro hkeep
    exact List.mem_map_of_mem (f := Prod.snd)
      (List.mem_filter.mpr ⟨mem_located_iff.mpr hlies, hkeep⟩)

/-- The nesting of what the members become on their levels. A member that becomes nothing is
left out, and so is what is inside it. -/
def settle (become : Level → α → Option β) (name : α → String) : Level → Nested α → Nested β
  | _, nil => nil
  | level, leaf a rest =>
    match become level a with
    | some b => leaf b (rest.settle become name level)
    | none => rest.settle become name level
  | level, loop a inner rest =>
    match become level a with
    | some b => loop b (inner.settle become name (.body (name a))) (rest.settle become name level)
    | none => rest.settle become name level

theorem entries_settle (become : Level → α → Option β) (name : α → String) (level : Level)
    (t : Nested α) : (t.settle become name level).entries =
      t.entries.filterMap fun e => (become level e.1).map fun b =>
        (b, e.2.map fun inner => inner.settle become name (.body (name e.1))) := by
  induction t with
  | nil => rfl
  | leaf a rest ih => cases h : become level a <;> simp [settle, entries, h, ih]
  | loop a inner rest _ ih => cases h : become level a <;> simp [settle, entries, h, ih]

theorem entries_map (f : α → β) (t : Nested α) :
    (t.map f).entries = t.entries.map fun e => (f e.1, e.2.map (Nested.map f)) := by
  induction t with
  | nil => rfl
  | leaf a rest ih => simp [map, entries, ih]
  | loop a inner rest _ ih => simp [map, entries, ih]

namespace Reorders

variable {t u : Nested α} (hsame : t.Reorders u)

include hsame

theorem settle (become : Level → α → Option β) (name : α → String) (level : Level) :
    (t.settle become name level).Reorders (u.settle become name level) := by
  rw [Reorders, entries_settle, entries_settle]
  exact hsame.filterMap _

theorem map (f : α → β) : (t.map f).Reorders (u.map f) := by
  rw [Reorders, entries_map, entries_map]
  exact List.Perm.map _ hsame

/-- What is read off a nesting entry by entry comes out in another order. -/
theorem perm (F : Nested α → List β) (ofLeaf : α → List β) (ofLoop : α → Nested α → List β)
    (hnil : F nil = []) (hleaf : ∀ a rest, F (leaf a rest) = ofLeaf a ++ F rest)
    (hloop : ∀ a inner rest, F (loop a inner rest) = ofLoop a inner ++ F rest) :
    (F t).Perm (F u) := by
  have hentries : ∀ v, F v = v.entries.flatMap fun e => e.2.elim (ofLeaf e.1) (ofLoop e.1) := by
    intro v
    induction v with
    | nil => exact hnil
    | leaf a rest ih => rw [hleaf, ih, entries, List.flatMap_cons, Option.elim]
    | loop a inner rest _ ih => rw [hloop, ih, entries, List.flatMap_cons, Option.elim]
  rw [hentries t, hentries u]
  exact List.Perm.flatMap_right _ hsame

theorem members_perm : t.members.Perm u.members :=
  hsame.perm members (fun a => [a]) (fun a inner => a :: inner.members) rfl
    (fun _ _ => rfl) fun _ _ _ => rfl

theorem roots_perm : t.roots.Perm u.roots :=
  hsame.perm roots (fun a => [a]) (fun a _ => [a]) rfl (fun _ _ => rfl) fun _ _ _ => rfl

theorem located_perm (name : α → String) (level : Level) :
    (t.located name level).Perm (u.located name level) :=
  hsame.perm (located name level) (fun a => [(level, a)])
    (fun a inner => (level, a) :: inner.located name (.body (name a))) rfl (fun _ _ => rfl)
    fun _ _ _ => rfl

end Reorders

end Nested

namespace Document

variable {g : Registry} {d : Document}

/-- The records of a list in another order unroll to the same entries in that order. -/
theorem Unrolls.reorder {rs rs' : List Record} (hperm : rs.Perm rs') :
    ∀ {t : Nested Record}, d.Unrolls g rs t → ∃ t', d.Unrolls g rs' t' ∧ t.Reorders t' := by
  induction hperm with
  | nil => exact fun ht => ⟨_, ht, .refl _⟩
  | cons r _ ih =>
      intro t ht
      cases ht with
      | leaf hclosed hrest =>
          obtain ⟨u, hu, hsame⟩ := ih hrest
          exact ⟨_, .leaf hclosed hu, hsame.cons _⟩
      | loop hopen hinner hrest =>
          obtain ⟨u, hu, hsame⟩ := ih hrest
          exact ⟨_, .loop hopen hinner hu, hsame.cons _⟩
  | swap r s rs =>
      intro t ht
      cases ht with
      | leaf hclosed hrest =>
          cases hrest with
          | leaf hclosed' hrest' => exact ⟨_, .leaf hclosed' (.leaf hclosed hrest'), .swap _ _ _⟩
          | loop hopen hinner hrest' =>
              exact ⟨_, .loop hopen hinner (.leaf hclosed hrest'), .swap _ _ _⟩
      | loop hopen hinner hrest =>
          cases hrest with
          | leaf hclosed hrest' =>
              exact ⟨_, .leaf hclosed (.loop hopen hinner hrest'), .swap _ _ _⟩
          | loop hopen' hinner' hrest' =>
              exact ⟨_, .loop hopen' hinner' (.loop hopen hinner hrest'), .swap _ _ _⟩
  | trans _ _ ih ih' =>
      intro t ht
      obtain ⟨u, hu, hsame⟩ := ih ht
      obtain ⟨v, hv, hsame'⟩ := ih' hu
      exact ⟨v, hv, hsame.trans hsame'⟩

/-- No id is registered as an alias of two loops. -/
def AliasesApart (g : Registry) (d : Document) : Prop :=
  ∀ id node other, d.Calls g (.aliased id node) → d.Calls g (.aliased id other) → node = other

/-- Aliases are apart if loops name loop-start nodes of their own and ids differ between
levels. -/
theorem IdsOnOneLevel.aliasesApart (hids : d.IdsOnOneLevel g) (hstarts : d.StartsOwn g) :
    d.AliasesApart g := by
  intro id node other hnode hother
  exact hids.owner_unique (hstarts.calls_aliased_iff.mp hnode)
    (hstarts.calls_aliased_iff.mp hother)

/-- The root plays no part in what a list of records unrolls to. -/
theorem unrolls_records_iff {root rs : List Record} {t : Nested Record} :
    { d with records := root }.Unrolls g rs t ↔ d.Unrolls g rs t := by
  constructor <;> intro ht
  all_goals
    induction ht with
    | nil => exact .nil
    | leaf hclosed _ ih => exact .leaf hclosed ih
    | loop hopen _ _ ihInner ihRest => exact .loop hopen ihInner ihRest

section Reordered

variable {rs : List Record} (hperm : rs.Perm d.records)

include hperm

theorem check_reorder (hcheck : d.check = .ok ()) : { d with records := rs }.check = .ok () := by
  obtain ⟨hroot, hsections⟩ := check_eq_ok_iff.mp hcheck
  rw [check_eq_ok_iff]
  exact ⟨Record.checkAll_eq_ok_iff.mpr fun r hr =>
    Record.checkAll_eq_ok_iff.mp hroot r (hperm.subset hr), hsections⟩

theorem Chain.reorder {used : List String} {list : List Record}
    (hchain : { d with records := rs }.Chain g used list) :
    ∃ whole, d.Chain g used whole ∧ list ⊆ whole := by
  induction hchain with
  | root => exact ⟨_, .root, hperm.subset⟩
  | inside _ hr hkind hbody ih =>
      obtain ⟨whole, hwhole, hsub⟩ := ih
      exact ⟨_, .inside hwhole (hsub hr) hkind hbody, List.Subset.refl _⟩

theorem SectionsAcyclic.reorder (hacyclic : d.SectionsAcyclic g) :
    { d with records := rs }.SectionsAcyclic g := by
  intro used list hchain
  obtain ⟨whole, hwhole, -⟩ := Chain.reorder hperm hchain
  exact hacyclic used whole hwhole

theorem Unrolls.exists_reorders {t : Nested Record}
    (ht : { d with records := rs }.Unrolls g rs t) :
    ∃ u, d.Unrolls g d.records u ∧ t.Reorders u :=
  (unrolls_records_iff.mp ht).reorder hperm

theorem IdsApart.reorder (hids : d.IdsApart g) : { d with records := rs }.IdsApart g := by
  intro t ht
  obtain ⟨u, hu, hsame⟩ := Unrolls.exists_reorders hperm ht
  exact (hsame.members_perm.map Record.id).nodup_iff.mpr (hids u hu)

theorem Surveys.reorder {level : Level} {list : List Record}
    (hsurveys : { d with records := rs }.Surveys g level list) :
    ∃ whole, d.Surveys g level whole ∧ list ⊆ whole := by
  induction hsurveys with
  | root => exact ⟨_, .root, hperm.subset⟩
  | body _ hr hloop hbody ih =>
      obtain ⟨whole, hwhole, hsub⟩ := ih
      exact ⟨_, .body hwhole (hsub hr) hloop hbody, List.Subset.refl _⟩

theorem Calls.reorder {e : Resolver.Entry} (hcalls : { d with records := rs }.Calls g e) :
    d.Calls g e := by
  have hreaches : ∀ r, { d with records := rs }.ReachesLoop g r → d.ReachesLoop g r := by
    rintro r ⟨level, list, hsurveys, hr, hloop⟩
    obtain ⟨whole, hwhole, hsub⟩ := Surveys.reorder hperm hsurveys
    exact ⟨level, whole, hwhole, hsub hr, hloop⟩
  cases hcalls with
  | start hreached hmarks => exact .start (hreaches _ hreached) hmarks
  | named hreached hid hsome => exact .named (hreaches _ hreached) hid hsome
  | output hreached ho hname => exact .output (hreaches _ hreached) ho hname

theorem calls_reorder_iff {e : Resolver.Entry} :
    { d with records := rs }.Calls g e ↔ d.Calls g e :=
  ⟨Calls.reorder hperm, Calls.reorder (d := { d with records := rs }) hperm.symm⟩

end Reordered

end Document

namespace Resolver

/-- Two lists of the same entries make resolvers that resolve alike, if an id is an alias of
one node only and an output has one new name only. -/
theorem resolve_ofEntries_congr {entries others : List Entry}
    (hsame : ∀ e, e ∈ entries ↔ e ∈ others)
    (haliases : ∀ id a b, .aliased id a ∈ entries → .aliased id b ∈ entries → a = b)
    (hnames : ∀ node name a b, .renamed node name a ∈ entries →
      .renamed node name b ∈ entries → a = b) :
    (ofEntries entries).resolve = (ofEntries others).resolve := by
  have hnode : ∀ id, (ofEntries entries).nodeId id = (ofEntries others).nodeId id := by
    intro id
    rcases nodeId_ofEntries entries id with hmem | ⟨hnone, hself⟩ <;>
      rcases nodeId_ofEntries others id with hmem' | ⟨hnone', hself'⟩
    · exact haliases id _ _ hmem ((hsame _).mpr hmem')
    · exact absurd ((hsame _).mp hmem) (hnone' _)
    · exact absurd ((hsame _).mpr hmem') (hnone _)
    · rw [hself, hself']
  have houtput : ∀ node name,
      (ofEntries entries).outputName node name = (ofEntries others).outputName node name := by
    intro node name
    rcases outputName_ofEntries entries node name with hmem | ⟨hnone, hself⟩ <;>
      rcases outputName_ofEntries others node name with hmem' | ⟨hnone', hself'⟩
    · exact hnames node name _ _ hmem ((hsame _).mpr hmem')
    · exact absurd ((hsame _).mp hmem) (hnone' _)
    · exact absurd ((hsame _).mpr hmem') (hnone _)
    · rw [hself, hself']
  funext node output type
  rw [resolve, resolve, hnode, houtput]

end Resolver

namespace Survey

variable {g : Registry} {d : Document}

/-- Documents that call for the same entries resolve pointers alike. -/
theorem resolve_congr (hapart : d.AliasesApart g) {other : Document}
    (hsame : ∀ e, other.Calls g e ↔ d.Calls g e) {resolver resolver' : Resolver}
    (hresolver : resolver? g d = some resolver) (hresolver' : resolver? g other = some resolver') :
    resolver.resolve = resolver'.resolve := by
  obtain ⟨entries, hentries, rfl⟩ := exists_entries hresolver
  obtain ⟨others, hothers, rfl⟩ := exists_entries hresolver'
  apply Resolver.resolve_ofEntries_congr
  · exact fun e => by rw [hentries, hothers, hsame]
  · intro id a b ha hb
    exact hapart id a b ((hentries _).mp ha) ((hentries _).mp hb)
  · intro node name a b ha hb
    obtain ⟨-, -, rfl⟩ := Document.calls_renamed_iff.mp ((hentries _).mp ha)
    obtain ⟨-, -, rfl⟩ := Document.calls_renamed_iff.mp ((hentries _).mp hb)
    rfl

end Survey

end WorkflowGraph
