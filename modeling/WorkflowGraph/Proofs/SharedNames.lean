/-
# Loops that share a name

The assembly finds bodies by the id of their loop alone. When loops on different levels
share an id, the first of them in the graph is given the list that was stored last, and
all later ones are given none. This module says when that comes to the right bodies all
the same.
-/

import WorkflowGraph.Proofs.AssemblyRules
import WorkflowGraph.Proofs.DocumentShape

namespace WorkflowGraph

namespace Nested

/-- The lists inside the loops of one id, in document order. -/
def loopsNamed (f : Nested Node) (x : String) : List (List Node) :=
  (f.loops.filter fun e => e.1 = x).map Prod.snd

/-- The lists stored for one id, in the order in which they are stored. -/
def storedNamed (f : Nested Node) (x : String) : List (List Node) :=
  ((f.bodies Node.id).filter fun e => e.1 = .body x).map fun e => e.2.roots

/-- The list stored last for one id, if there is any. -/
def lastNamed (f : Nested Node) (x : String) : List Node :=
  (f.storedNamed x).getLast?.getD []

theorem loopsNamed_leaf_of_ne {n : Node} (hkind : n.kind ≠ .iteration) (rest : Nested Node)
    (x : String) : (leaf n rest).loopsNamed x = rest.loopsNamed x := by
  rw [loopsNamed, loops, if_neg hkind, loopsNamed]

theorem loopsNamed_leaf {n : Node} (hkind : n.kind = .iteration) (rest : Nested Node)
    (x : String) :
    (leaf n rest).loopsNamed x = (if n.id = x then [[]] else []) ++ rest.loopsNamed x := by
  rw [loopsNamed, loops, if_pos hkind, List.filter_cons, loopsNamed]
  by_cases hid : n.id = x <;> simp [hid]

theorem loopsNamed_loop (n : Node) (inner rest : Nested Node) (x : String) :
    (loop n inner rest).loopsNamed x =
      (if n.id = x then [inner.roots] else []) ++
        (inner.loopsNamed x ++ rest.loopsNamed x) := by
  rw [loopsNamed, loops, List.filter_cons, loopsNamed, loopsNamed]
  by_cases hid : n.id = x <;> simp [hid]

theorem storedNamed_leaf (n : Node) (rest : Nested Node) (x : String) :
    (leaf n rest).storedNamed x = rest.storedNamed x := rfl

theorem storedNamed_loop (n : Node) (inner rest : Nested Node) (x : String) :
    (loop n inner rest).storedNamed x = inner.storedNamed x ++
      ((if n.id = x then [inner.roots] else []) ++ rest.storedNamed x) := by
  simp only [storedNamed, bodies, List.filter_append, List.filter_cons, List.map_append,
    Level.body.injEq, decide_eq_true_eq]
  by_cases hname : n.id = x <;> simp [hname]

/-- What is stored for an id is inside one of its loops. -/
theorem storedNamed_subset {f : Nested Node} (hfresh : f.IsFresh) (x : String) :
    f.storedNamed x ⊆ f.loopsNamed x := by
  induction hfresh with
  | nil => exact List.Subset.refl _
  | @leaf n rest _ _ ih =>
      rw [storedNamed_leaf]
      by_cases hkind : n.kind = .iteration
      · rw [loopsNamed_leaf hkind]
        exact List.subset_append_of_subset_right _ ih
      · rwa [loopsNamed_leaf_of_ne hkind]
  | @loop n inner rest _ _ _ _ ihInner ihRest =>
      rw [storedNamed_loop, loopsNamed_loop]
      intro list hlist
      simp only [List.mem_append] at hlist ⊢
      rcases hlist with hinner | hhere | hrest
      · exact Or.inr (Or.inl (ihInner hinner))
      · exact Or.inl hhere
      · exact Or.inr (Or.inr (ihRest hrest))

/-- What is inside a loop is stored, unless it is empty. -/
theorem eq_nil_or_mem_storedNamed {f : Nested Node} (hfresh : f.IsFresh) {x : String}
    {list : List Node} (hlist : list ∈ f.loopsNamed x) : list = [] ∨ list ∈ f.storedNamed x := by
  induction hfresh with
  | nil => cases hlist
  | @leaf n rest _ _ ih =>
      by_cases hkind : n.kind = .iteration
      · rw [loopsNamed_leaf hkind, List.mem_append] at hlist
        rcases hlist with hhere | hrest
        · split at hhere
          · exact Or.inl (List.mem_singleton.mp hhere)
          · cases hhere
        · exact ih hrest
      · rw [loopsNamed_leaf_of_ne hkind] at hlist
        exact ih hlist
  | @loop n inner rest _ _ _ _ ihInner ihRest =>
      rw [loopsNamed_loop, List.mem_append, List.mem_append] at hlist
      simp only [storedNamed_loop, List.mem_append]
      rcases hlist with hhere | hinner | hrest
      · exact Or.inr (Or.inr (Or.inl hhere))
      · exact (ihInner hinner).imp_right Or.inl
      · exact (ihRest hrest).imp_right fun h => Or.inr (Or.inr h)

/-- The list stored last for an id is inside one of its loops. -/
theorem lastNamed_eq_nil_or_mem {f : Nested Node} (hfresh : f.IsFresh) (x : String) :
    f.lastNamed x = [] ∨ f.lastNamed x ∈ f.loopsNamed x := by
  unfold lastNamed
  cases hlast : (f.storedNamed x).getLast? with
  | none => exact Or.inl rfl
  | some list => exact Or.inr (f.storedNamed_subset hfresh x (List.mem_of_getLast? hlast))

end Nested

namespace LevelTable

theorem nodes_without (t : LevelTable) (y x : String) :
    (t.without (.body y)).nodes (.body x) = if y = x then [] else t.nodes (.body x) := by
  rw [nodes, lookup_without]
  by_cases hname : y = x
  · simp [hname]
  · have hlevel : ¬ Level.body x = .body y := fun h => hname (Level.body.inj h).symm
    simp [hname, hlevel, nodes]

end LevelTable

namespace Assembly

/-- Of the lists that are asked for in turn under one name, the first is like the stored
one, and the others, for which nothing is left, are like the empty list. -/
def InTurn {α : Type} (alike : List α → List α → Prop) (stored : List α) :
    List (List α) → Prop
  | [] => True
  | first :: others => alike stored first ∧ ∀ other ∈ others, alike [] other

theorem inTurn_nil_iff {α : Type} {alike : List α → List α → Prop} (lists : List (List α)) :
    InTurn alike [] lists ↔ ∀ list ∈ lists, alike [] list := by
  cases lists with
  | nil => simp [InTurn]
  | cons first others => exact List.forall_mem_cons.symm

/-- What is asked for first leaves nothing for what is asked for later. -/
theorem inTurn_append_iff {α : Type} {alike : List α → List α → Prop} (stored : List α)
    (a b : List (List α)) : InTurn alike stored (a ++ b) ↔
      InTurn alike stored a ∧ InTurn alike (if a = [] then stored else []) b := by
  cases a with
  | nil => simp [InTurn]
  | cons first others =>
      rw [if_neg (List.cons_ne_nil _ _), inTurn_nil_iff]
      simp only [InTurn, List.cons_append, List.forall_mem_append, and_assoc]

variable {alike : List Node → List Node → Prop}

/-- What is asked for under one name alone. -/
theorem forall_inTurn_single_iff (stored : String → List Node) (y : String)
    (list : List Node) :
    (∀ x, InTurn alike (stored x) (if y = x then [list] else [])) ↔ alike (stored y) list := by
  constructor
  · intro hall
    have hhere := hall y
    rw [if_pos rfl] at hhere
    exact hhere.1
  · intro hlike x
    by_cases hname : y = x
    · rw [if_pos hname, ← hname]
      exact ⟨hlike, nofun⟩
    · rw [if_neg hname]
      trivial

theorem asked_iff_loopsNamed {f : Nested Node} (hfresh : f.IsFresh) (x : String) :
    .body x ∈ asked f ↔ f.loopsNamed x ≠ [] := by
  induction hfresh with
  | nil => simp [asked, Nested.loopsNamed, Nested.loops]
  | @leaf n rest _ _ ih =>
      by_cases hkind : n.kind = .iteration
      · rw [asked, if_pos hkind, Nested.loopsNamed_leaf hkind, List.mem_cons, ih]
        by_cases hname : n.id = x
        · simp [hname]
        · have hother : ¬ x = n.id := fun h => hname h.symm
          simp [hname, hother]
      · rw [asked, if_neg hkind, Nested.loopsNamed_leaf_of_ne hkind, ih]
  | @loop n inner rest _ _ _ _ ihInner ihRest =>
      rw [asked, Nested.loopsNamed_loop, List.mem_append, List.mem_cons, ihInner, ihRest]
      by_cases hname : n.id = x
      · simp [hname]
      · have hother : ¬ x = n.id := fun h => hname h.symm
        simp only [Level.body.injEq, hother, false_or, hname, if_false, List.nil_append, ne_eq,
          List.append_eq_nil_iff, Decidable.not_and_iff_or_not]

theorem nodes_leftover (t : LevelTable) {f : Nested Node} (hfresh : f.IsFresh) (x : String) :
    (leftover t f).nodes (.body x) =
      if f.loopsNamed x = [] then t.nodes (.body x) else [] := by
  rw [LevelTable.nodes, lookup_leftover]
  by_cases hnone : f.loopsNamed x = []
  · have hasked : .body x ∉ asked f := fun h => (asked_iff_loopsNamed hfresh x).mp h hnone
    simp [hnone, hasked, LevelTable.nodes]
  · have hasked : .body x ∈ asked f := (asked_iff_loopsNamed hfresh x).mpr hnone
    simp [hnone, hasked]

theorem serves_leaf_iff {t : LevelTable} {n : Node} (hkind : n.kind = .iteration)
    (rest : Nested Node) : Serves alike t (.leaf n rest) ↔
      alike (t.nodes (.body n.id)) [] ∧ Serves alike (t.without (.body n.id)) rest := by
  constructor
  · intro hserves
    cases hserves with
    | plain hother _ => exact absurd hkind hother
    | bare _ hlike hrest => exact ⟨hlike, hrest⟩
  · rintro ⟨hlike, hrest⟩
    exact .bare hkind hlike hrest

theorem serves_loop_iff {t : LevelTable} {n : Node} (hkind : n.kind = .iteration)
    (inner rest : Nested Node) : Serves alike t (.loop n inner rest) ↔
      alike (t.nodes (.body n.id)) inner.roots ∧ Serves alike (t.without (.body n.id)) inner ∧
        Serves alike (leftover (t.without (.body n.id)) inner) rest := by
  constructor
  · intro hserves
    cases hserves with
    | loop _ hlike hinner hrest => exact ⟨hlike, hinner, hrest⟩
  · rintro ⟨hlike, hinner, hrest⟩
    exact .loop hkind hlike hinner hrest

/-- A table serves a nesting exactly if the loops of each id are served in turn. -/
theorem serves_iff {f : Nested Node} (hfresh : f.IsFresh) :
    ∀ t, Serves alike t f ↔
      ∀ x, InTurn alike (t.nodes (.body x)) (f.loopsNamed x) := by
  induction hfresh with
  | nil => exact fun t => ⟨fun _ _ => trivial, fun _ => .nil⟩
  | @leaf n rest hn _ ih =>
      intro t
      by_cases hkind : n.kind = .iteration
      · have hnext : ∀ x, (t.without (.body n.id)).nodes (.body x) =
            if (if n.id = x then [([] : List Node)] else []) = [] then t.nodes (.body x)
            else [] := by
          intro x
          rw [LevelTable.nodes_without]
          by_cases hname : n.id = x <;> simp [hname]
        rw [serves_leaf_iff hkind, ih]
        simp only [Nested.loopsNamed_leaf hkind, inTurn_append_iff, forall_and, hnext,
          forall_inTurn_single_iff fun x => t.nodes (.body x)]
      · simp only [Nested.loopsNamed_leaf_of_ne hkind, ← ih]
        constructor
        · intro hserves
          cases hserves with
          | plain _ hrest => exact hrest
          | bare hiteration => exact absurd hiteration hkind
        · exact fun hrest => .plain hkind hrest
  | @loop n inner rest hn hkind hinner _ ihInner ihRest =>
      intro t
      have hnext : ∀ x, (t.without (.body n.id)).nodes (.body x) =
          if (if n.id = x then [inner.roots] else []) = [] then t.nodes (.body x)
          else [] := by
        intro x
        rw [LevelTable.nodes_without]
        by_cases hname : n.id = x <;> simp [hname]
      rw [serves_loop_iff hkind, ihInner, ihRest]
      simp only [Nested.loopsNamed_loop, inTurn_append_iff, forall_and, hnext,
        nodes_leftover _ hinner, forall_inTurn_single_iff fun x => t.nodes (.body x)]

theorem lookup_eq_head? {β : Type} (entries : List (Level × β)) (level : Level) :
    entries.lookup level = ((entries.filter fun e => e.1 = level).map Prod.snd).head? := by
  induction entries with
  | nil => rfl
  | cons entry rest ih =>
      obtain ⟨key, b⟩ := entry
      by_cases hkey : level = key
      · simp [hkey]
      · have hother : ¬ key = level := fun h => hkey h.symm
        rw [List.lookup_cons, beq_eq_false_iff_ne.mpr hkey]
        simp [hother, ih]

/-- The table of a nesting holds the list that was stored last. -/
theorem nodes_tableOf (f : Nested Node) (x : String) :
    ((tableOf f).without .root).nodes (.body x) = f.lastNamed x := by
  have hroot : ¬ Level.body x = .root := nofun
  have hlevels : (((f.levels Node.id .root).map fun e => (e.1, e.2.roots)).filter
      fun e => e.1 = .body x).map Prod.snd = f.storedNamed x := by
    simp [Nested.levels, Nested.storedNamed, List.filter_map, Function.comp_def]
  rw [LevelTable.nodes, LevelTable.lookup_without, if_neg hroot, tableOf,
    LevelTable.lookup_ofLevels, lookup_eq_head?, List.filter_reverse, List.map_reverse,
    List.head?_reverse, hlevels, Nested.lastNamed]

/-- Lists whose nodes have the same faces. -/
def SameFaces (a b : List Node) : Prop :=
  a.map Node.face = b.map Node.face

/-- If the stored list is one of those asked for, it is enough to compare faces. -/
theorem inTurn_eq_of_sameFaces {stored : List Node} {lists : List (List Node)}
    (hstored : stored = [] ∨ stored ∈ lists) (hturn : InTurn SameFaces stored lists) :
    InTurn Eq stored lists := by
  cases lists with
  | nil => trivial
  | cons first others =>
      obtain ⟨hfirst, hothers⟩ := hturn
      have hempty : ∀ other ∈ others, [] = other := fun other hother =>
        (List.map_eq_nil_iff.mp (hothers other hother).symm).symm
      refine ⟨?_, hempty⟩
      have hnone : stored = [] → stored = first := by
        rintro rfl
        exact (List.map_eq_nil_iff.mp hfirst.symm).symm
      rcases hstored with hnil | hmem
      · exact hnone hnil
      · rcases List.mem_cons.mp hmem with hhere | hlater
        · exact hhere
        · exact hnone (hempty stored hlater).symm

section Outline

open WorkflowGraph.Graph

variable {p : Platform} {part : EdgePartition}

theorem roots_outlineNodes (ns : List Node) : (outlineNodes ns).roots = ns.map Node.face := by
  induction ns with
  | nil => rfl
  | cons n ns ih =>
      rw [outlineNodes_cons]
      split <;> rw [Nested.roots, List.map_cons, ih]

theorem roots_faces (f : Nested Node) : f.faces.roots = f.roots.map Node.face := by
  induction f with
  | nil => rfl
  | leaf n rest ih =>
      rw [Nested.faces, Nested.roots, List.map_cons, ← ih]
      split <;> rfl
  | loop n inner rest _ ih => rw [Nested.faces, Nested.roots, Nested.roots, List.map_cons, ih]

theorem faces_attachBodies (inner : Level → LevelTable → Assembled Graph) (ns : List Node) :
    ∀ t, SameFaces (attachBodies part inner ns t).value ns := by
  induction ns with
  | nil => exact fun _ => rfl
  | cons n ns ih =>
      intro t
      by_cases hkind : n.kind = .iteration
      · rw [attachBodies_cons_of_iteration _ hkind, SameFaces, List.map_cons, List.map_cons,
          Node.withBody_face, ih]
      · rw [attachBodies_cons_of_ne _ hkind, SameFaces, List.map_cons, List.map_cons, ih]

/-- A table of nodes as the decoders leave them. -/
def FreshTable (t : LevelTable) : Prop :=
  ∀ e ∈ t, ∀ n ∈ e.2, n.IsFresh

theorem FreshTable.without {t : LevelTable} (ht : FreshTable t) (level : Level) :
    FreshTable (t.without level) :=
  fun e he => ht e (List.mem_filter.mp he).1

theorem FreshTable.leftover {f : Nested Node} :
    ∀ {t : LevelTable}, FreshTable t → FreshTable (leftover t f) := by
  induction f with
  | nil => exact fun ht => ht
  | leaf n rest ih =>
      intro t ht
      rw [Assembly.leftover]
      split
      · exact ih (ht.without _)
      · exact ih ht
  | loop n inner rest ihInner ihRest =>
      intro t ht
      exact ihRest (ihInner (ht.without _))

theorem FreshTable.nodes {t : LevelTable} (ht : FreshTable t) (level : Level) :
    ∀ n ∈ t.nodes level, n.IsFresh := by
  intro n hn
  unfold LevelTable.nodes at hn
  cases hlookup : t.lookup level with
  | none => simp [hlookup] at hn
  | some ns =>
      obtain ⟨before, after, rfl, -⟩ := List.lookup_eq_some_iff.mp hlookup
      rw [hlookup] at hn
      exact ht _ (List.mem_append_right _ List.mem_cons_self) n hn

/-- What the assembly makes of an iteration node, seen from its outline. -/
theorem outline_cons_of_iteration {m : Node} (hm : m.IsFresh) (hkind : m.kind = .iteration)
    (ms : List Node) (t : LevelTable) :
    outlineNodes (attachBodies part (ofLevel p part) (m :: ms) t).value =
      .loop m.face
        (outlineNodes (attachBodies part (ofLevel p part) (t.nodes (.body m.id))
          (t.without (.body m.id))).value)
        (outlineNodes (attachBodies part (ofLevel p part) ms
          (ofLevel p part (.body m.id) t).rest).value) := by
  rw [attachBodies_cons_of_iteration _ hkind, outlineNodes_cons]
  obtain ⟨loop, hconfig, hbody, -⟩ := hm.withBody_config hkind part
    (ofLevel p part (.body m.id) t).value
  rw [hconfig, outlineBody_iteration, hbody, Node.withBody_face]
  rw [ofLevel_eq (.body m.id), close, outline]

variable (p part) in
/-- Nodes whose assembly shows the faces of a nesting are served by the table as far as
faces go, and leave in it what the nesting leaves. -/
def ServesShown (f : Nested Node) : Prop :=
  ∀ ns t, (∀ n ∈ ns, n.IsFresh) → FreshTable t → SameFaces ns f.roots →
    outlineNodes (attachBodies part (ofLevel p part) ns t).value = f.faces →
      Serves SameFaces t f ∧ (attachBodies part (ofLevel p part) ns t).rest = leftover t f

theorem sameFaces_of_outline {ns : List Node} {t : LevelTable} {f : Nested Node}
    (hshape : outlineNodes (attachBodies part (ofLevel p part) ns t).value = f.faces) :
    SameFaces ns f.roots := by
  have hroots := congrArg Nested.roots hshape
  rwa [roots_outlineNodes, faces_attachBodies, roots_faces] at hroots

theorem ServesShown.plain {n : Node} {rest : Nested Node} (hkind : n.kind ≠ .iteration)
    (ih : ServesShown p part rest) : ServesShown p part (.leaf n rest) := by
  intro ns t hns ht hfaces hshape
  obtain ⟨m, ms, rfl, hface, hrest⟩ := List.map_eq_cons_iff.mp hfaces
  obtain ⟨hm, hms⟩ := List.forall_mem_cons.mp hns
  have hsame : m.kind = n.kind := congrArg Face.kind hface
  have hmkind : m.kind ≠ .iteration := hsame ▸ hkind
  rw [attachBodies_cons_of_ne _ hmkind] at hshape ⊢
  rw [outlineNodes_cons, outlineBody_of_ne (hm.config ▸ hmkind), Nested.faces,
    if_neg hkind] at hshape
  obtain ⟨-, htail⟩ := Nested.leaf.inj hshape
  obtain ⟨hserves, hleft⟩ := ih ms t hms ht hrest htail
  refine ⟨.plain hkind hserves, ?_⟩
  rw [leftover, if_neg hkind]
  exact hleft

/-- An iteration node shown without a body finds no nodes under its id. -/
theorem ServesShown.bare {n : Node} {rest : Nested Node} (hkind : n.kind = .iteration)
    (ih : ServesShown p part rest) : ServesShown p part (.leaf n rest) := by
  intro ns t hns ht hfaces hshape
  obtain ⟨m, ms, rfl, hface, hrest⟩ := List.map_eq_cons_iff.mp hfaces
  obtain ⟨hm, hms⟩ := List.forall_mem_cons.mp hns
  have hid : m.id = n.id := congrArg Face.id hface
  have hmkind : m.kind = .iteration := (congrArg Face.kind hface).trans hkind
  rw [outline_cons_of_iteration hm hmkind, Nested.faces, if_pos hkind] at hshape
  obtain ⟨-, hbody, htail⟩ := Nested.loop.inj hshape
  have hnone : t.nodes (.body m.id) = [] :=
    List.map_eq_nil_iff.mp (sameFaces_of_outline (f := .nil) hbody)
  have hbodyRest : (ofLevel p part (.body m.id) t).rest = t.without (.body m.id) := by
    rw [ofLevel_eq, hnone]
    rfl
  rw [hbodyRest] at htail
  obtain ⟨hserves, hleft⟩ := ih ms _ hms (ht.without _) hrest htail
  rw [hid] at hnone hserves
  refine ⟨.bare hkind (by rw [hnone]; rfl) hserves, ?_⟩
  rw [attachBodies_cons_of_iteration _ hmkind, hbodyRest, hleft, leftover, if_pos hkind, hid]

/-- The body is assembled before the nodes after the loop, from the table without it. -/
theorem ServesShown.loop {n : Node} {inner rest : Nested Node} (hkind : n.kind = .iteration)
    (ihInner : ServesShown p part inner) (ihRest : ServesShown p part rest) :
    ServesShown p part (.loop n inner rest) := by
  intro ns t hns ht hfaces hshape
  obtain ⟨m, ms, rfl, hface, hrest⟩ := List.map_eq_cons_iff.mp hfaces
  obtain ⟨hm, hms⟩ := List.forall_mem_cons.mp hns
  have hid : m.id = n.id := congrArg Face.id hface
  have hmkind : m.kind = .iteration := (congrArg Face.kind hface).trans hkind
  rw [outline_cons_of_iteration hm hmkind, Nested.faces] at hshape
  obtain ⟨-, hbody, htail⟩ := Nested.loop.inj hshape
  have hlike : SameFaces (t.nodes (.body m.id)) inner.roots := sameFaces_of_outline hbody
  obtain ⟨hservesInner, hleftInner⟩ :=
    ihInner _ _ (ht.nodes _) (ht.without (.body m.id)) hlike hbody
  have hbodyRest : (ofLevel p part (.body m.id) t).rest =
      leftover (t.without (.body m.id)) inner := by
    rw [ofLevel_eq, ← hleftInner]
    rfl
  rw [hbodyRest] at htail
  obtain ⟨hserves, hleft⟩ := ihRest ms _ hms (ht.without _).leftover hrest htail
  rw [hid] at hlike hservesInner hserves
  refine ⟨.loop hkind hlike hservesInner hserves, ?_⟩
  rw [attachBodies_cons_of_iteration _ hmkind, hbodyRest, hleft, leftover, hid]

/-- If the assembly of some nodes shows the faces of a nesting, the table serves the
nesting as far as faces go. -/
theorem serves_of_outline {f : Nested Node} (hfresh : f.IsFresh) : ServesShown p part f := by
  induction hfresh with
  | nil =>
      intro ns t _ _ hfaces _
      obtain rfl := List.map_eq_nil_iff.mp hfaces
      exact ⟨.nil, rfl⟩
  | @leaf n rest _ _ ih =>
      by_cases hkind : n.kind = .iteration
      · exact .bare hkind ih
      · exact .plain hkind ih
  | loop _ hkind _ _ ihInner ihRest => exact .loop hkind ihInner ihRest

theorem freshTable_tableOf {f : Nested Node} (hfresh : f.IsFresh) : FreshTable (tableOf f) := by
  intro e he n hn
  obtain ⟨list, hlist, rfl⟩ := List.mem_map.mp (LevelTable.mem_of_mem_ofLevels he)
  exact (hfresh.of_mem_levels hlist).roots n hn

/-- The table of a nesting serves it exactly if, for each id, the list that was stored
last is the one asked for first, and nothing else is asked for. -/
theorem serves_tableOf_iff {f : Nested Node} (hfresh : f.IsFresh) :
    Serves alike ((tableOf f).without .root) f ↔
      ∀ x, InTurn alike (f.lastNamed x) (f.loopsNamed x) := by
  rw [serves_iff hfresh]
  simp only [nodes_tableOf]

/-- The assembly of the levels of a nesting shows the faces of the nesting exactly if the
loops of each id are served in turn. -/
theorem outline_tableOf_iff {f : Nested Node} (hfresh : f.IsFresh) :
    (ofLevel p part .root (tableOf f)).value.outline = f.faces ↔
      Serves Eq ((tableOf f).without .root) f := by
  constructor
  · intro hshape
    rw [ofLevel_eq, nodes_tableOf_root, close, outline] at hshape
    have hserves := (serves_of_outline hfresh f.roots _ hfresh.roots
      ((freshTable_tableOf hfresh).without .root) rfl hshape).1
    rw [serves_tableOf_iff hfresh] at hserves ⊢
    exact fun x => inTurn_eq_of_sameFaces (f.lastNamed_eq_nil_or_mem hfresh x) (hserves x)
  · intro hserves
    rw [ofLevel_of_serves (nodes_tableOf_root f) hserves, graph, outline]
    exact outlineNodes_attached p part hfresh

end Outline

end Assembly

end WorkflowGraph
