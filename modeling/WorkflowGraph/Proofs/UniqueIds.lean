/-
# Documents in which every id occurs once

If no two records of the lifted lists share an id, an id says on which level its record
lies. Then no look-up depends on the level from which it is made: an id means the one
node that has it, or the one body whose start it marks. Such a document also converts
whenever it passes its check and its sections are acyclic.
-/

import Mathlib.Data.List.Pairwise
import WorkflowGraph.Proofs.RepeatedIds

namespace WorkflowGraph

/-- Among levels that are all one level, every look-up finds it. -/
theorem Level.nearest?_congr {levels others : List Level} (hsame : ∀ x, x ∈ levels ↔ x ∈ others)
    (hone : ∀ x ∈ levels, ∀ y ∈ levels, x = y) (level : Level) :
    nearest? levels level = nearest? others level := by
  cases hfound : nearest? others level with
  | none =>
      have hnil := nearest?_eq_none_iff.mp hfound
      subst hnil
      rw [nearest?_eq_none_iff, List.eq_nil_iff_forall_not_mem]
      exact fun x hx => List.not_mem_nil ((hsame x).mp hx)
  | some found =>
      have hmem := (hsame found).mpr (mem_of_nearest?_eq_some hfound)
      cases hother : nearest? levels level with
      | none =>
          rw [nearest?_eq_none_iff.mp hother] at hmem
          cases hmem
      | some other => rw [hone other (mem_of_nearest?_eq_some hother) found hmem]

/-- Where an id has one level at most, looking it up does not depend on the order of the
entries. -/
theorem Placement.nearest?_levelsOf_congr {entries others : List (String × Level)} {id : String}
    (hsame : ∀ x, (id, x) ∈ entries ↔ (id, x) ∈ others)
    (hone : ∀ x y, (id, x) ∈ entries → (id, y) ∈ entries → x = y) (level : Level) :
    Level.nearest? (levelsOf entries id) level = Level.nearest? (levelsOf others id) level := by
  apply Level.nearest?_congr
  · intro x
    rw [mem_levelsOf, mem_levelsOf, hsame]
  · exact fun x hx y hy => hone x y (mem_levelsOf.mp hx) (mem_levelsOf.mp hy)

/-- If lists together repeat nothing, each member is in one of them. -/
theorem eq_of_mem_of_nodup_flatMap {α β : Type} {f : α → List β} {l : List α}
    (hnodup : (l.flatMap f).Nodup) {a b : α} (ha : a ∈ l) (hb : b ∈ l) {y : β} (hya : y ∈ f a)
    (hyb : y ∈ f b) : a = b := by
  by_contra hne
  have hsymm : Std.Symm (Function.onFun List.Disjoint f) :=
    ⟨fun _ _ h _ hy hy' => h hy' hy⟩
  exact (List.nodup_flatMap.mp hnodup).2.forall ha hb hne hya hyb

namespace Nested

variable {α : Type} (name : α → String)

/-- A member lies in a list of the nesting, on the level of that list. -/
def Lies (level : Level) (t : Nested α) (place : Level) (a : α) : Prop :=
  ∃ e ∈ t.levels name level, e.1 = place ∧ a ∈ e.2.roots

variable {name} {level place other : Level} {t inner rest : Nested α} {a b : α}

@[simp] theorem not_lies_nil : ¬ (nil : Nested α).Lies name level place a := by
  simp [Lies, levels, bodies, roots]

/-- The outermost list is one list, and those inside the rest are the others. -/
theorem lies_iff : t.Lies name level place a ↔
    (∃ e ∈ t.bodies name, e.1 = place ∧ a ∈ e.2.roots) ∨ level = place ∧ a ∈ t.roots := by
  simp [Lies, levels, or_and_right, exists_or]

@[simp] theorem lies_leaf : (leaf b rest).Lies name level place a ↔
    level = place ∧ a = b ∨ rest.Lies name level place a := by
  simp only [lies_iff, bodies, roots, List.mem_cons, and_or_left]
  exact or_left_comm

@[simp] theorem lies_loop : (loop b inner rest).Lies name level place a ↔
    level = place ∧ a = b ∨ inner.Lies name (.body (name b)) place a ∨
      rest.Lies name level place a := by
  simp only [lies_iff, bodies, roots, List.mem_append, List.mem_cons, and_or_left, or_and_right,
    exists_or, exists_eq_left]
  grind

/-- Where no two members share a name, a name belongs to one member on one level. -/
theorem Lies.unique (hnodup : (t.members.map name).Nodup) (ha : t.Lies name level place a)
    (hb : t.Lies name level other b) (hname : name a = name b) : place = other ∧ a = b := by
  obtain ⟨e, he, rfl, hina⟩ := ha
  obtain ⟨f, hf, rfl, hinb⟩ := hb
  have hlists : ((t.levels name level).flatMap fun e => e.2.roots.map name).Nodup := by
    have hperm := (t.levels_perm_members name level).map name
    rw [List.map_flatMap] at hperm
    exact hperm.nodup_iff.mpr hnodup
  have hlist := (List.nodup_flatMap.mp hlists).1 e he
  obtain rfl := eq_of_mem_of_nodup_flatMap hlists he hf (List.mem_map_of_mem hina)
    (hname ▸ List.mem_map_of_mem hinb)
  exact ⟨rfl, List.inj_on_of_nodup_map hlist hina hinb hname⟩

end Nested

namespace Document

/-- No two records of the lifted lists share an id, whatever the level. -/
def IdsApart (g : Registry) (d : Document) : Prop :=
  ∀ t, d.Unrolls g d.records t → (t.members.map Record.id).Nodup

variable {g : Registry} {d : Document}

/-- A computation decides that no two records share an id. -/
theorem idsApart_of_unroll? (n : Nat)
    (hall : (d.unroll? g n d.records).any (fun t => (t.members.map Record.id).Nodup) = true) :
    d.IdsApart g := by
  intro t ht
  obtain ⟨u, hfound, hnodup⟩ := Option.any_eq_true _ _ |>.mp hall
  obtain rfl := ht.unique (unrolls_of_unroll? n _ _ hfound)
  exact of_decide_eq_true hnodup

/-- A record of a lifted list lies in the nesting of its document. -/
theorem Unrolls.lies {t : Nested Record} (ht : d.Unrolls g d.records t) {level : Level}
    {rs : List Record} (hlist : d.Lists g level rs) {r : Record} (hr : r ∈ rs) :
    t.Lies Record.id .root level r := by
  obtain ⟨u, hmem, hu⟩ := ht.exists_of_lists hlist
  exact ⟨_, hmem, rfl, hu.roots_eq.symm ▸ hr⟩

theorem IdsApart.loopsApart (hids : d.IdsApart g) {t : Nested Record}
    (ht : d.Unrolls g d.records t) : d.LoopsApart g := by
  intro level rs hlist other rs' hlist' r hr r' hr' _ _ hid
  exact ((ht.lies hlist hr).unique (hids t ht) (ht.lies hlist' hr') hid).1.symm

theorem IdsApart.nodup (hids : d.IdsApart g) {t : Nested Record}
    (ht : d.Unrolls g d.records t) {level : Level} {rs : List Record}
    (hlist : d.Lists g level rs) : (rs.map Record.id).Nodup := by
  obtain ⟨u, hmem, hu⟩ := ht.exists_of_lists hlist
  rw [← hu.roots_eq]
  have hperm := (t.levels_perm_members Record.id .root).map Record.id
  rw [List.map_flatMap] at hperm
  exact (List.nodup_flatMap.mp (hperm.nodup_iff.mpr (hids t ht))).1 _ hmem

end Document

namespace Lift

variable {g : Registry} {d : Document} {resolver : Resolver} {level place : Level}
  {t : Nested Record} {f : Nested Node}

/-- Nodes are placed where the records that survive lie. -/
theorem Decodes.mem_places_iff (hg : g.UsesBuiltIns) (hdecodes : Decodes g resolver level t f)
    {id : String} : (id, place) ∈ places level (f.map .ready) ↔
      ∃ r, t.Lies Record.id level place r ∧ (g.survivor? place r).isSome = true ∧ r.id = id := by
  induction hdecodes with
  | nil => simp [Nested.map, places]
  | skip hnone _ ih =>
      simp only [ih, Nested.lies_leaf, or_and_right, exists_or]
      grind
  | leaf hn _ ih =>
      have hsome := hn.survivor?_eq hg
      simp only [Nested.map, places, slotPlaces, List.mem_append, List.mem_singleton, ih,
        Nested.lies_leaf, or_and_right, exists_or, Prod.mk.injEq, hn.id_eq hg]
      grind
  | loop hloop hn _ _ ihInner ihRest =>
      have hsome := hn.survivor?_eq hg
      simp only [Nested.map, places, slotPlaces, slotId, List.mem_append, List.mem_singleton,
        hn.id_eq hg, ihInner, ihRest, Nested.lies_loop, or_and_right, exists_or,
        Prod.mk.injEq]
      grind

/-- A start belongs to the body in which its loop-start record lies. -/
theorem exists_of_mem_listedStarts {id owner : String}
    (hstart : (id, owner) ∈ listedStarts g level t) :
    ∃ r, t.Lies Record.id level (.body owner) r ∧ g.platform.isPseudoTag r.tag = true ∧
      r.id = id := by
  induction t generalizing level with
  | nil => cases hstart
  | leaf r rest ih =>
      rcases List.mem_append.mp hstart with hhere | hrest
      · unfold markedStarts at hhere
        split at hhere
        next hpseudo =>
            cases level with
            | root => cases hhere
            | body loop =>
                obtain ⟨rfl, rfl⟩ := Prod.mk.inj (List.mem_singleton.mp hhere)
                exact ⟨r, Nested.lies_leaf.mpr (Or.inl ⟨rfl, rfl⟩), hpseudo, rfl⟩
        next => cases hhere
      · obtain ⟨r', hlies, hfound⟩ := ih hrest
        exact ⟨r', Nested.lies_leaf.mpr (Or.inr hlies), hfound⟩
  | loop r inner rest ihInner ihRest =>
      rcases List.mem_append.mp hstart with hin | hrest
      · obtain ⟨r', hlies, hfound⟩ := ihInner hin
        exact ⟨r', Nested.lies_loop.mpr (Or.inr (Or.inl hlies)), hfound⟩
      · obtain ⟨r', hlies, hfound⟩ := ihRest hrest
        exact ⟨r', Nested.lies_loop.mpr (Or.inr (Or.inr hlies)), hfound⟩

end Lift

namespace Lifted

variable {g : Registry} {d : Document} {resolver : Resolver} {l : Lifted} {t : Nested Record}
  {f : Nested Node}

/-- A node is placed where its record lies. -/
theorem Mirrors.mem_nodes_iff (hg : g.UsesBuiltIns) (hmirrors : l.Mirrors g d t f)
    (hdecodes : Lift.Decodes g resolver .root t f) {id : String} {place : Level} :
    (id, place) ∈ l.placement.nodes ↔
      ∃ r, t.Lies Record.id .root place r ∧ (g.survivor? place r).isSome = true ∧ r.id = id := by
  rw [placement_eq, Placement.mem_nodes_ofSteps_iff, ← hdecodes.mem_places_iff hg,
    ← hmirrors.placed]
  simp [steps]

theorem mem_starts_iff (l : Lifted) {id : String} {body : Level} :
    (id, body) ∈ l.placement.starts ↔
      ∃ owner, (id, owner) ∈ l.harvest.starts ∧ body = .body owner := by
  rw [placement_eq, Placement.mem_starts_ofSteps_iff]
  simp [steps]

/-- A start is noted for the body in which its record lies. -/
theorem Mirrors.exists_of_mem_starts (hmirrors : l.Mirrors g d t f) {id : String}
    {body : Level} (hstart : (id, body) ∈ l.placement.starts) :
    ∃ r, t.Lies Record.id .root body r ∧ g.platform.isPseudoTag r.tag = true ∧ r.id = id := by
  obtain ⟨owner, hlisted, rfl⟩ := l.mem_starts_iff.mp hstart
  rw [hmirrors.starts] at hlisted
  exact Lift.exists_of_mem_listedStarts hlisted

/-- If no two records of the nesting share an id, no id is placed on two levels. -/
theorem Mirrors.eq_of_mem_nodes (hg : g.UsesBuiltIns) (hmirrors : l.Mirrors g d t f)
    (hdecodes : Lift.Decodes g resolver .root t f) (hids : (t.members.map Record.id).Nodup)
    {id : String} {x y : Level} (hx : (id, x) ∈ l.placement.nodes)
    (hy : (id, y) ∈ l.placement.nodes) : x = y := by
  obtain ⟨r, hlies, -, hid⟩ := (hmirrors.mem_nodes_iff hg hdecodes).mp hx
  obtain ⟨r', hlies', -, hid'⟩ := (hmirrors.mem_nodes_iff hg hdecodes).mp hy
  exact (hlies.unique hids hlies' (hid.trans hid'.symm)).1

/-- If no two records of the nesting share an id, no id is a start of two bodies. -/
theorem Mirrors.eq_of_mem_starts (hmirrors : l.Mirrors g d t f)
    (hids : (t.members.map Record.id).Nodup) {id : String} {x y : Level}
    (hx : (id, x) ∈ l.placement.starts) (hy : (id, y) ∈ l.placement.starts) : x = y := by
  obtain ⟨r, hlies, -, hid⟩ := hmirrors.exists_of_mem_starts hx
  obtain ⟨r', hlies', -, hid'⟩ := hmirrors.exists_of_mem_starts hy
  exact (hlies.unique hids hlies' (hid.trans hid'.symm)).1

end Lifted

namespace Conversion

variable {g : Registry} {d : Document}

/-- A document that passes its check, has acyclic sections and repeats no id is converted,
and its levels are put together to its nesting. -/
theorem exists_rebuilt (hg : g.UsesBuiltIns) (hcheck : d.check = .ok ())
    (hacyclic : d.SectionsAcyclic g) (hids : d.IdsApart g) :
    ∃ resolver t f l, Survey.resolver? g d = some resolver ∧ d.Unrolls g d.records t ∧
      Lift.Decodes g resolver .root t f ∧ Lifted.ofDocument? g d = some l ∧
        Rebuilt g d l t f ∧ ofDocument g d =
          .ok ⟨g.platform, (assemble g.platform l).1, (assemble g.platform l).2⟩ := by
  obtain ⟨l, hlifted⟩ := Lifted.exists_ofDocument? hg hacyclic
  obtain ⟨resolver, t, f, hresolver, hunrolls, hdecodes, hmirrors⟩ :=
    Lifted.ofDocument?_decodes hg hlifted
  have hapart := hids.loopsApart hunrolls
  have hnodup := hdecodes.ids_nodup hg (fun _ _ => hids.nodup hunrolls) hunrolls
  have hrebuilt := rebuilt_of_loopsApart hg hapart hunrolls hdecodes hmirrors (Or.inl hnodup)
  refine ⟨resolver, t, f, l, hresolver, hunrolls, hdecodes, hlifted, hrebuilt, ?_⟩
  cases hvalid : (assemble g.platform l).1.validate with
  | ok _ => exact ofDocument_eq_ok_iff.mpr ⟨⟨_, hcheck⟩, l, hlifted, hvalid, rfl⟩
  | error e =>
      -- The check finds nothing but repeated ids, and the lists have none.
      have hclean : (f.clean (presentIds l.levels)).LoopsApart := by
        simpa only [Nested.LoopsApart, Nested.forall_levels_clean, Nested.iterationIds_clean]
          using hrebuilt.apart
      rw [assemble_fst_eq _ hmirrors] at hvalid
      obtain ⟨id, -, list, hlist, htwice⟩ := Assembly.repeatsId_of_validate hclean
        ((hdecodes.isFresh hg).clean _) (arrives_clean hmirrors _) hvalid
      rw [Nested.levels_clean] at hlist
      obtain ⟨own, hown, rfl⟩ := List.mem_map.mp hlist
      rw [Nested.ids_clean] at htwice
      exact absurd (List.nodup_iff_count.mp (hnodup own hown) id) (Nat.not_le_of_lt htwice)

end Conversion

end WorkflowGraph
