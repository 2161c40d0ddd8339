/-
# Loops with names of their own

If no two loops of different levels share an id, and the ids of every list differ, then
each level of a nesting has a name of its own and the table of its levels serves every
loop. The ids of the lists need not be known to differ beforehand: it is enough that they
do in the graph that is put together, because the assembly can only go wrong inside a
list that already repeats an id.
-/

import WorkflowGraph.Proofs.AttachedNodes

namespace WorkflowGraph

namespace Nested

/-- An id that only one of several lists can hold is counted in that list alone. -/
theorem count_flatMap_of_single {β : Type} (ids : Level × β → List String)
    {lists : List (Level × β)} {e : Level × β} {x : String} (he : e ∈ lists)
    (hcount : (lists.map Prod.fst).count e.1 = 1)
    (hother : ∀ other ∈ lists, x ∈ ids other → other.1 = e.1) :
    (lists.flatMap ids).count x = (ids e).count x := by
  induction lists with
  | nil => cases he
  | cons other lists ih =>
      rw [List.map_cons, List.count_cons] at hcount
      rw [List.flatMap_cons, List.count_append]
      rcases List.mem_cons.mp he with rfl | hmem
      · have hnone : (lists.flatMap ids).count x = 0 := by
          apply List.count_eq_zero_of_not_mem
          intro hx
          obtain ⟨later, hlater, hxlater⟩ := List.mem_flatMap.mp hx
          have hkey := hother later (List.mem_cons_of_mem _ hlater) hxlater
          have hagain : 0 < (lists.map Prod.fst).count e.1 :=
            List.count_pos_iff.mpr (hkey ▸ List.mem_map_of_mem hlater)
          simp only [beq_self_eq_true, if_true] at hcount
          omega
        rw [hnone, Nat.add_zero]
      · have hkey : other.1 ≠ e.1 := by
          intro hkey
          have hagain : 0 < (lists.map Prod.fst).count e.1 :=
            List.count_pos_iff.mpr (List.mem_map_of_mem hmem)
          simp only [hkey, beq_self_eq_true, if_true] at hcount
          omega
        have hnone : (ids other).count x = 0 :=
          List.count_eq_zero_of_not_mem fun hx => hkey (hother other List.mem_cons_self hx)
        rw [hnone, Nat.zero_add]
        refine ih hmem ?_ fun later hlater => hother later (List.mem_cons_of_mem _ hlater)
        simpa [beq_eq_false_iff_ne.mpr hkey] using hcount

/-- The ids of the iteration nodes in the outermost list. -/
def iterationIds : Nested Node → List String
  | .nil => []
  | .leaf n rest => if n.kind = .iteration then n.id :: iterationIds rest else iterationIds rest
  | .loop n _ rest => n.id :: iterationIds rest

/-- No two iteration nodes of different levels share an id. -/
def LoopsApart (f : Nested Node) : Prop :=
  ∀ e ∈ f.levels Node.id .root, ∀ other ∈ f.levels Node.id .root,
    ∀ x ∈ e.2.iterationIds, x ∈ other.2.iterationIds → other.1 = e.1

/-- Among the named levels, each loop of the outermost list has exactly one of its own,
and an iteration node without a list has none. -/
def OwnsLevels (keys : List Level) : Nested Node → Prop
  | .nil => True
  | .leaf n rest => (n.kind = .iteration → .body n.id ∉ keys) ∧ OwnsLevels keys rest
  | .loop n _ rest => keys.count (.body n.id) = 1 ∧ OwnsLevels keys rest

theorem iterationIds_sublist_ids (f : Nested Node) : f.iterationIds.Sublist f.ids := by
  induction f with
  | nil => exact .slnil
  | leaf n rest ih =>
      unfold iterationIds
      split
      · exact ih.cons_cons _
      · exact ih.cons _
  | loop n inner rest _ ih => exact ih.cons_cons _

theorem owners_subset_iterationIds (f : Nested Node) :
    f.owners Node.id ⊆ f.iterationIds := by
  induction f with
  | nil => exact fun _ hx => hx
  | leaf n rest ih =>
      unfold iterationIds
      split
      · exact List.subset_cons_of_subset _ ih
      · exact ih
  | loop n inner rest _ ih => exact List.cons_subset_cons _ ih

/-- The owner of a list inside the outermost one is an iteration node of some list. -/
theorem owner_mem_iterationIds {f : Nested Node} {e : Level × Nested Node} {owner : String}
    (he : e ∈ f.levels Node.id .root) (hlevel : e.1 = .body owner) :
    owner ∈ (f.levels Node.id .root).flatMap fun e => e.2.iterationIds := by
  have hmem : Level.body owner ∈ (f.levels Node.id .root).map Prod.fst :=
    hlevel ▸ List.mem_map_of_mem he
  rw [← List.count_pos_iff, count_levels_root, List.count_pos_iff] at hmem
  obtain ⟨holder, hholder, howner⟩ := List.mem_flatMap.mp hmem
  exact List.mem_flatMap.mpr ⟨holder, hholder, holder.2.owners_subset_iterationIds howner⟩

/-- In a list without repeated ids, the levels of the loops are counted by their names. -/
theorem ownsLevels_of_count {keys : List Level} {f : Nested Node} (hids : f.ids.Nodup)
    (hcount : ∀ x ∈ f.iterationIds, keys.count (.body x) = (f.owners Node.id).count x) :
    OwnsLevels keys f := by
  induction f with
  | nil => trivial
  | leaf n rest ih =>
      obtain ⟨hnew, hrest⟩ := List.nodup_cons.mp hids
      refine ⟨fun hkind => ?_, ih hrest fun x hx => hcount x ?_⟩
      · have hhere := hcount n.id (by simp [iterationIds, hkind])
        have hnone : (rest.owners Node.id).count n.id = 0 :=
          List.count_eq_zero_of_not_mem fun hx =>
            hnew (rest.iterationIds_sublist_ids.subset (rest.owners_subset_iterationIds hx))
        exact List.count_eq_zero.mp (hhere.trans hnone)
      · unfold iterationIds
        split
        · exact List.mem_cons_of_mem _ hx
        · exact hx
  | loop n inner rest _ ih =>
      obtain ⟨hnew, hrest⟩ := List.nodup_cons.mp hids
      have hnone : (rest.owners Node.id).count n.id = 0 :=
        List.count_eq_zero_of_not_mem fun hx =>
          hnew (rest.iterationIds_sublist_ids.subset (rest.owners_subset_iterationIds hx))
      refine ⟨?_, ih hrest fun x hx => ?_⟩
      · rw [hcount n.id List.mem_cons_self, owners, List.count_cons_self, hnone]
      · have hne : n.id ≠ x := fun h => hnew (h ▸ rest.iterationIds_sublist_ids.subset hx)
        rw [hcount x (List.mem_cons_of_mem _ hx), owners, List.count_cons_of_ne hne]

/-- Where the loops of different levels have different ids, a list that has a level to
itself and repeats no id gives its loops levels of their own. -/
theorem LoopsApart.ownsLevels {f : Nested Node} (hapart : f.LoopsApart)
    {e : Level × Nested Node} (he : e ∈ f.levels Node.id .root)
    (hcount : ((f.levels Node.id .root).map Prod.fst).count e.1 = 1) (hids : e.2.ids.Nodup) :
    OwnsLevels ((f.levels Node.id .root).map Prod.fst) e.2 := by
  apply ownsLevels_of_count hids
  intro x hx
  rw [count_levels_root]
  refine count_flatMap_of_single (fun e => e.2.owners Node.id) he hcount
    fun other hother hxother => ?_
  exact hapart e he other hother x hx (other.2.owners_subset_iterationIds hxother)

end Nested

namespace Graph

/-- No body inside the nodes of a list repeats an id. -/
def BodiesKeepIds (ns : List Node) : Prop :=
  ∀ n ∈ walkNodes ns, ∀ loop, n.config = .iteration loop →
    (loop.body.nodes.map Node.id).Nodup

theorem bodiesKeepIds_cons {n : Node} {ns : List Node} (hall : BodiesKeepIds (n :: ns)) :
    (∀ loop, n.config = .iteration loop →
      (loop.body.nodes.map Node.id).Nodup ∧ BodiesKeepIds loop.body.nodes) ∧
        BodiesKeepIds ns := by
  unfold BodiesKeepIds at hall
  rw [walkNodes_cons, List.forall_mem_append, List.forall_mem_cons] at hall
  obtain ⟨⟨hhere, hinside⟩, hrest⟩ := hall
  refine ⟨fun loop hloop => ⟨hhere loop hloop, ?_⟩, hrest⟩
  rw [hloop, walkBody_iteration, walk_eq] at hinside
  exact hinside

end Graph

namespace Assembly

open WorkflowGraph.Graph

/-- A key that occurs once is looked up to its only value. -/
theorem lookup_of_count_eq_one {β : Type} {entries : List (Level × β)} {level : Level} {b : β}
    (hmem : (level, b) ∈ entries) (hone : (entries.map Prod.fst).count level = 1) :
    entries.lookup level = some b := by
  induction entries with
  | nil => cases hmem
  | cons entry rest ih =>
      obtain ⟨key, c⟩ := entry
      by_cases hkey : level = key
      · subst hkey
        rcases List.mem_cons.mp hmem with heq | hlater
        · cases heq
          exact List.lookup_cons_self
        · have hagain : 0 < (rest.map Prod.fst).count level :=
            List.count_pos_iff.mpr (List.mem_map_of_mem hlater)
          rw [List.map_cons, List.count_cons_self] at hone
          omega
      · have hlater : (level, b) ∈ rest := by
          rcases List.mem_cons.mp hmem with heq | hlater
          · exact absurd (congrArg Prod.fst heq) hkey
          · exact hlater
        rw [List.map_cons, List.count_cons_of_ne (Ne.symm hkey)] at hone
        rw [List.lookup_cons, beq_eq_false_iff_ne.mpr hkey]
        exact ih hlater hone

variable {p : Platform} {part : EdgePartition}

theorem ids_attachBodies (part : EdgePartition)
    (inner : Level → LevelTable → Assembled Graph) (ns : List Node) :
    ∀ t, (attachBodies part inner ns t).value.map Node.id = ns.map Node.id := by
  induction ns with
  | nil => exact fun _ => rfl
  | cons n ns ih =>
      intro t
      by_cases hkind : n.kind = .iteration
      · rw [attachBodies_cons_of_iteration _ hkind, List.map_cons, List.map_cons, ih,
          Node.withBody_id]
      · rw [attachBodies_cons_of_ne _ hkind, List.map_cons, List.map_cons, ih]

/-- What a table holds of a nesting: the lists that have a level to themselves. Nothing
is stored for a level without a name. -/
structure Stores (keys : List Level) (t : LevelTable) (f : Nested Node) : Prop where
  found : ∀ e ∈ f.bodies Node.id, keys.count e.1 = 1 → t.lookup e.1 = some e.2.roots
  absent : ∀ level, level ∉ keys → t.lookup level = none

/-- A nesting whose lists repeat no id and have a level each, with a table that serves
it. Its nodes ask for no other stored level. -/
structure Named (keys : List Level) (t : LevelTable) (f : Nested Node) : Prop where
  serves : Serves Eq t f
  once : ∀ e ∈ f.bodies Node.id, keys.count e.1 = 1
  ids : ∀ e ∈ f.bodies Node.id, e.2.ids.Nodup
  asked : ∀ level ∈ asked f, level ∈ (f.bodies Node.id).map Prod.fst ∨ level ∉ keys

/-- The lists of a nesting repeat no id, seen before the assembly or after it. -/
def KeepsIds (p : Platform) (part : EdgePartition) (t : LevelTable) (f : Nested Node) : Prop :=
  (∀ e ∈ f.bodies Node.id, e.2.ids.Nodup) ∨
    BodiesKeepIds (attachBodies part (ofLevel p part) f.roots t).value

/-- Inside a nesting, the list of a loop, the lists within it and the lists after it take
their levels from the same supply. -/
theorem count_keys_loop {f inner rest : Nested Node} {n : Node}
    (hsub : ((Nested.loop n inner rest).bodies Node.id).Sublist (f.levels Node.id .root))
    (level : Level) :
    ((inner.bodies Node.id).map Prod.fst).count level + (if level = .body n.id then 1 else 0) +
        ((rest.bodies Node.id).map Prod.fst).count level ≤
      ((f.levels Node.id .root).map Prod.fst).count level := by
  have hle := (hsub.map Prod.fst).count_le level
  simp only [Nested.bodies, List.map_append, List.map_cons, List.count_append,
    List.count_cons, beq_iff_eq, eq_comm (b := level)] at hle
  omega

/-- A loop with a level of its own finds the list inside it. -/
theorem Stores.nodes_loop {keys : List Level} {t : LevelTable} {n : Node}
    {inner rest : Nested Node} (hstores : Stores keys t (.loop n inner rest))
    (hone : keys.count (.body n.id) = 1) : t.nodes (.body n.id) = inner.roots := by
  rw [LevelTable.nodes, hstores.found _ (Nested.mem_bodies_loop Node.id n inner rest) hone]
  rfl

/-- An iteration node without a level finds nothing. -/
theorem Stores.nodes_bare {keys : List Level} {t : LevelTable} {f : Nested Node} {n : Node}
    (hstores : Stores keys t f) (hbare : .body n.id ∉ keys) :
    t.nodes (.body n.id) = [] ∧ t.without (.body n.id) = t := by
  have habsent := hstores.absent _ hbare
  exact ⟨by simp [LevelTable.nodes, habsent], LevelTable.without_eq_self habsent⟩

/-- Taking out the level of a loop leaves the lists within it where they are. -/
theorem Stores.inner {f inner rest : Nested Node} {n : Node} {t : LevelTable}
    (hsub : ((Nested.loop n inner rest).bodies Node.id).Sublist (f.levels Node.id .root))
    (hstores : Stores ((f.levels Node.id .root).map Prod.fst) t (.loop n inner rest)) :
    Stores ((f.levels Node.id .root).map Prod.fst) (t.without (.body n.id)) inner where
  found := by
    intro e he hone
    have hle := count_keys_loop hsub e.1
    have hpos : 0 < ((inner.bodies Node.id).map Prod.fst).count e.1 :=
      List.count_pos_iff.mpr (List.mem_map_of_mem he)
    have hne : ¬ e.1 = .body n.id := by
      intro heq
      rw [if_pos heq] at hle
      omega
    rw [LevelTable.lookup_without, if_neg hne]
    exact hstores.found e (List.mem_append_left _ he) hone
  absent := by
    intro level hlevel
    rw [LevelTable.lookup_without, hstores.absent level hlevel, ite_self]

/-- The loops within a list take none of the lists after it. -/
theorem Stores.rest {f inner rest : Nested Node} {n : Node} {t : LevelTable}
    (hsub : ((Nested.loop n inner rest).bodies Node.id).Sublist (f.levels Node.id .root))
    (hstores : Stores ((f.levels Node.id .root).map Prod.fst) t (.loop n inner rest))
    (hasked : ∀ level ∈ asked inner, level ∈ (inner.bodies Node.id).map Prod.fst ∨
      level ∉ (f.levels Node.id .root).map Prod.fst) :
    Stores ((f.levels Node.id .root).map Prod.fst)
      (leftover (t.without (.body n.id)) inner) rest where
  found := by
    intro e he hone
    have hle := count_keys_loop hsub e.1
    have hpos : 0 < ((rest.bodies Node.id).map Prod.fst).count e.1 :=
      List.count_pos_iff.mpr (List.mem_map_of_mem he)
    have hne : ¬ e.1 = .body n.id := by
      intro heq
      rw [if_pos heq] at hle
      omega
    have hnot : e.1 ∉ asked inner := by
      intro hmem
      rcases hasked e.1 hmem with hin | hout
      · have hagain := List.count_pos_iff.mpr hin
        omega
      · rw [List.count_eq_zero_of_not_mem hout] at hone
        cases hone
    rw [lookup_leftover, if_neg hnot, LevelTable.lookup_without, if_neg hne]
    exact hstores.found e (List.mem_append_right _ (List.mem_cons_of_mem _ he)) hone
  absent := by
    intro level hlevel
    rw [lookup_leftover, LevelTable.lookup_without, hstores.absent level hlevel, ite_self,
      ite_self]

/-! The lists behind a node repeat no id, and neither does the body of a loop. -/

section Keeping

variable {t : LevelTable} {n : Node} {inner rest : Nested Node}

theorem KeepsIds.of_plain (hkeeps : KeepsIds p part t (.leaf n rest))
    (hkind : n.kind ≠ .iteration) : KeepsIds p part t rest := by
  refine hkeeps.imp id fun hbodies => ?_
  rw [Nested.roots, attachBodies_cons_of_ne _ hkind] at hbodies
  exact (bodiesKeepIds_cons hbodies).2

theorem KeepsIds.of_bare (hkeeps : KeepsIds p part t (.leaf n rest)) (hkind : n.kind = .iteration)
    (hnone : t.nodes (.body n.id) = []) (hsame : t.without (.body n.id) = t) :
    KeepsIds p part t rest := by
  refine hkeeps.imp id fun hbodies => ?_
  rw [Nested.roots, attachBodies_cons_of_iteration _ hkind, ofLevel_eq, hnone, hsame,
    attachBodies, close_nil] at hbodies
  exact (bodiesKeepIds_cons hbodies).2

theorem KeepsIds.of_loop (hkeeps : KeepsIds p part t (.loop n inner rest)) (hn : n.IsFresh)
    (hkind : n.kind = .iteration) (hfound : t.nodes (.body n.id) = inner.roots) :
    inner.ids.Nodup ∧ KeepsIds p part (t.without (.body n.id)) inner := by
  rcases hkeeps with hlists | hbodies
  · exact ⟨hlists _ (Nested.mem_bodies_loop Node.id n inner rest),
      Or.inl fun e he => hlists e (List.mem_append_left _ he)⟩
  · obtain ⟨loop, hconfig, hbody, -⟩ := hn.withBody_config hkind part
      (close p part (.body n.id) (attachBodies part (ofLevel p part) inner.roots
        (t.without (.body n.id)))).value
    rw [Nested.roots, attachBodies_cons_of_iteration _ hkind, ofLevel_eq, hfound] at hbodies
    obtain ⟨hhere, hinside⟩ := (bodiesKeepIds_cons hbodies).1 loop hconfig
    rw [hbody] at hhere hinside
    refine ⟨?_, Or.inr hinside⟩
    rw [Nested.ids, ← ids_attachBodies part (ofLevel p part) inner.roots]
    exact hhere

theorem KeepsIds.after_loop (hkeeps : KeepsIds p part t (.loop n inner rest))
    (hkind : n.kind = .iteration) (hfound : t.nodes (.body n.id) = inner.roots)
    (hserves : Serves Eq (t.without (.body n.id)) inner) :
    KeepsIds p part (leftover (t.without (.body n.id)) inner) rest := by
  rcases hkeeps with hlists | hbodies
  · exact Or.inl fun e he => hlists e (List.mem_append_right _ (List.mem_cons_of_mem _ he))
  · rw [Nested.roots, attachBodies_cons_of_iteration _ hkind, ofLevel_eq, hfound,
      hserves.attachBodies_eq] at hbodies
    exact Or.inr (bodiesKeepIds_cons hbodies).2

end Keeping

/-! A nesting is named if its parts are. -/

section Naming

variable {keys : List Level} {t : LevelTable} {n : Node} {inner rest : Nested Node}

theorem Named.plain (hkind : n.kind ≠ .iteration) (hrest : Named keys t rest) :
    Named keys t (.leaf n rest) where
  serves := .plain hkind hrest.serves
  once := hrest.once
  ids := hrest.ids
  asked level hlevel := by
    simp only [Assembly.asked, hkind, if_false] at hlevel
    exact hrest.asked level hlevel

theorem Named.bare (hkind : n.kind = .iteration) (hbare : .body n.id ∉ keys)
    (hnone : t.nodes (.body n.id) = []) (hsame : t.without (.body n.id) = t)
    (hrest : Named keys t rest) : Named keys t (.leaf n rest) where
  serves := .bare hkind hnone (hsame.symm ▸ hrest.serves)
  once := hrest.once
  ids := hrest.ids
  asked level hlevel := by
    simp only [Assembly.asked, hkind, if_true, List.mem_cons] at hlevel
    rcases hlevel with rfl | hlevel
    · exact Or.inr hbare
    · exact hrest.asked level hlevel

theorem Named.loop (hkind : n.kind = .iteration) (hone : keys.count (.body n.id) = 1)
    (hfound : t.nodes (.body n.id) = inner.roots) (hids : inner.ids.Nodup)
    (hinner : Named keys (t.without (.body n.id)) inner)
    (hrest : Named keys (leftover (t.without (.body n.id)) inner) rest) :
    Named keys t (.loop n inner rest) where
  serves := .loop hkind hfound hinner.serves hrest.serves
  once e he := by
    simp only [Nested.bodies, List.mem_append, List.mem_cons] at he
    rcases he with hin | rfl | hlater
    · exact hinner.once e hin
    · exact hone
    · exact hrest.once e hlater
  ids e he := by
    simp only [Nested.bodies, List.mem_append, List.mem_cons] at he
    rcases he with hin | rfl | hlater
    · exact hinner.ids e hin
    · exact hids
    · exact hrest.ids e hlater
  asked level hlevel := by
    simp only [Assembly.asked, List.mem_append, List.mem_cons] at hlevel
    simp only [Nested.bodies, List.map_append, List.map_cons, List.mem_append, List.mem_cons]
    rcases hlevel with (rfl | hin) | hlater
    · exact Or.inl (Or.inr (Or.inl rfl))
    · exact (hinner.asked level hin).imp_left Or.inl
    · exact (hrest.asked level hlater).imp_left fun h => Or.inr (Or.inr h)

end Naming

/-- Every list of a nesting finds its own level. The induction follows the assembly:
the ids of a body are known to differ before the loops inside it are looked up, and that
is what makes those look-ups succeed. -/
theorem named_of_loopsApart {f g : Nested Node} (hapart : f.LoopsApart) (hfresh : g.IsFresh) :
    ∀ t, (g.bodies Node.id).Sublist (f.levels Node.id .root) →
      g.OwnsLevels ((f.levels Node.id .root).map Prod.fst) →
        Stores ((f.levels Node.id .root).map Prod.fst) t g → KeepsIds p part t g →
          Named ((f.levels Node.id .root).map Prod.fst) t g := by
  induction hfresh with
  | nil =>
      intro t _ _ _ _
      exact ⟨.nil, nofun, nofun, nofun⟩
  | @leaf n rest hn _ ih =>
      intro t hsub howns hstores hkeeps
      obtain ⟨hbare, hownsRest⟩ := howns
      have hnamed := ih t hsub hownsRest ⟨hstores.found, hstores.absent⟩
      by_cases hkind : n.kind = .iteration
      · obtain ⟨hnone, hsame⟩ := hstores.nodes_bare (hbare hkind)
        exact (hnamed (hkeeps.of_bare hkind hnone hsame)).bare hkind (hbare hkind) hnone hsame
      · exact (hnamed (hkeeps.of_plain hkind)).plain hkind
  | @loop n inner rest hn hkind _ _ ihInner ihRest =>
      intro t hsub howns hstores hkeeps
      obtain ⟨hone, hownsRest⟩ := howns
      have hfound := hstores.nodes_loop hone
      have hsubInner := (Nested.bodies_inner_sublist Node.id n inner rest).trans hsub
      have hsubRest := (Nested.bodies_rest_sublist Node.id n inner rest).trans hsub
      have hlisted := hsub.subset (Nested.mem_bodies_loop Node.id n inner rest)
      obtain ⟨hids, hkeepsInner⟩ := hkeeps.of_loop hn hkind hfound
      have hnamed := ihInner _ hsubInner (hapart.ownsLevels hlisted hone hids)
        (hstores.inner hsub) hkeepsInner
      have hkeepsRest := hkeeps.after_loop hkind hfound hnamed.serves
      have hlast := ihRest _ hsubRest hownsRest (hstores.rest hsub hnamed.asked) hkeepsRest
      exact .loop hkind hone hfound hids hnamed hlast

/-- The table of the levels of a nesting. -/
def tableOf (f : Nested Node) : LevelTable :=
  .ofLevels ((f.levels Node.id .root).map fun e => (e.1, e.2.roots))

theorem lookup_tableOf (f : Nested Node) {e : Level × Nested Node}
    (he : e ∈ f.levels Node.id .root)
    (hone : ((f.levels Node.id .root).map Prod.fst).count e.1 = 1) :
    (tableOf f).lookup e.1 = some e.2.roots := by
  rw [tableOf, LevelTable.lookup_ofLevels]
  refine lookup_of_count_eq_one (List.mem_reverse.mpr (List.mem_map_of_mem he)) ?_
  rw [List.map_reverse, List.count_reverse, List.map_map]
  exact hone

theorem nodes_tableOf_root (f : Nested Node) : (tableOf f).nodes .root = f.roots := by
  have hmem : (.root, f) ∈ f.levels Node.id .root :=
    List.mem_append_right _ (List.mem_singleton_self _)
  rw [LevelTable.nodes, lookup_tableOf f hmem (f.count_root_levels_root Node.id)]
  rfl

/-- Without its root, the table of a nesting stores every list that has a level to
itself. -/
theorem stores_tableOf (f : Nested Node) :
    Stores ((f.levels Node.id .root).map Prod.fst) ((tableOf f).without .root) f where
  found := by
    intro e he hone
    have hne : ¬ e.1 = .root := fun heq =>
      f.root_not_mem_bodies Node.id (heq ▸ List.mem_map_of_mem he)
    rw [LevelTable.lookup_without, if_neg hne]
    exact lookup_tableOf f (List.mem_append_left _ he) hone
  absent := by
    intro level hlevel
    have hnone : (tableOf f).lookup level = none := by
      rw [tableOf, LevelTable.lookup_ofLevels, List.lookup_eq_none_iff]
      intro entry hentry
      obtain ⟨e, he, rfl⟩ := List.mem_map.mp (List.mem_reverse.mp hentry)
      exact bne_iff_ne.mpr fun (heq : level = e.1) =>
        hlevel (heq ▸ List.mem_map_of_mem he)
    rw [LevelTable.lookup_without, hnone, ite_self]

/-- A nesting is put together from the table of its levels if its loops are apart and its
lists repeat no id, seen before the assembly or after it. Then its levels all have
different names. -/
theorem ofLevel_tableOf {f : Nested Node} (hapart : f.LoopsApart) (hfresh : f.IsFresh)
    (hkeeps : (∀ e ∈ f.levels Node.id .root, e.2.ids.Nodup) ∨
      (ofLevel p part .root (tableOf f)).value.KeepsRules) :
    (ofLevel p part .root (tableOf f)).value = graph p part .root f ∧
      ((f.levels Node.id .root).map Prod.fst).Nodup ∧
        ∀ e ∈ f.levels Node.id .root, e.2.ids.Nodup := by
  have hmem : (.root, f) ∈ f.levels Node.id .root :=
    List.mem_append_right _ (List.mem_singleton_self _)
  have hkept : f.ids.Nodup ∧ KeepsIds p part ((tableOf f).without .root) f := by
    rcases hkeeps with hlists | hrules
    · exact ⟨hlists _ hmem, Or.inl fun e he => hlists e (List.mem_append_left _ he)⟩
    · rw [ofLevel_eq, nodes_tableOf_root] at hrules
      refine ⟨?_, Or.inr fun n hn loop hloop => ?_⟩
      · rw [Nested.ids, ← ids_attachBodies part (ofLevel p part) f.roots]
        exact hrules.level.ids
      · exact ((hrules.nodes n (by rw [walk_eq]; exact hn)).body loop hloop).ids
  have hnamed := named_of_loopsApart hapart hfresh _ (List.sublist_append_left _ _)
    (hapart.ownsLevels hmem (f.count_root_levels_root Node.id) hkept.1) (stores_tableOf f)
    hkept.2
  have honce : ∀ e ∈ f.levels Node.id .root,
      ((f.levels Node.id .root).map Prod.fst).count e.1 = 1 := by
    intro e he
    rcases List.mem_append.mp he with hin | hroot
    · exact hnamed.once e hin
    · obtain rfl := List.mem_singleton.mp hroot
      exact f.count_root_levels_root Node.id
  refine ⟨?_, List.nodup_iff_count.mpr fun level => ?_, fun e he => ?_⟩
  · rw [ofLevel_of_serves (nodes_tableOf_root f) hnamed.serves]
  · by_cases hlevel : level ∈ (f.levels Node.id .root).map Prod.fst
    · obtain ⟨e, he, rfl⟩ := List.mem_map.mp hlevel
      exact Nat.le_of_eq (honce e he)
    · rw [List.count_eq_zero_of_not_mem hlevel]
      exact Nat.zero_le 1
  · rcases List.mem_append.mp he with hin | hroot
    · exact hnamed.ids e hin
    · obtain rfl := List.mem_singleton.mp hroot
      exact hkept.1

end Assembly

end WorkflowGraph
