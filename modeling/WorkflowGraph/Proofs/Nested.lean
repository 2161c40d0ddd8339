/-
# Levels inside levels

A list some of whose members have a list of their own inside. A document with the bodies
of its loops put in place has this shape, and so has the graph it becomes, while the
conversion keeps the levels side by side and finds them again by the names of their
owners. This module counts how often a name owns a level, which decides whether finding
a level by name finds the right one.
-/

import WorkflowGraph.Level

namespace WorkflowGraph

/-- A list some of whose members, the loops, have a list of their own inside. -/
inductive Nested (α : Type)
  | nil
  | leaf (a : α) (rest : Nested α)
  | loop (a : α) (inner rest : Nested α)
  deriving DecidableEq, Inhabited, Repr

namespace Nested

variable {α β : Type}

/-- The members of the outermost list. -/
def roots : Nested α → List α
  | nil => []
  | leaf a rest => a :: rest.roots
  | loop a _ rest => a :: rest.roots

/-- The same nesting of other members. -/
def map (f : α → β) : Nested α → Nested β
  | nil => nil
  | leaf a rest => leaf (f a) (rest.map f)
  | loop a inner rest => loop (f a) (inner.map f) (rest.map f)

@[simp] theorem roots_map (f : α → β) (t : Nested α) : (t.map f).roots = t.roots.map f := by
  induction t with
  | nil => rfl
  | leaf a rest ih => simp [map, roots, ih]
  | loop a inner rest _ ih => simp [map, roots, ih]

/-- All members in document order, each before those inside it. -/
def members : Nested α → List α
  | nil => []
  | leaf a rest => a :: rest.members
  | loop a inner rest => a :: (inner.members ++ rest.members)

theorem members_map (f : α → β) (t : Nested α) : (t.map f).members = t.members.map f := by
  induction t with
  | nil => rfl
  | leaf a rest ih => rw [map, members, members, ih, List.map_cons]
  | loop a inner rest ihInner ihRest =>
      rw [map, members, members, ihInner, ihRest, List.map_cons, List.map_append]

section Names

variable (name : α → String)

/-- The lists inside, each as the body of the loop that holds it; what is inside a list
stands before it. -/
def bodies : Nested α → List (Level × Nested α)
  | nil => []
  | leaf _ rest => rest.bodies
  | loop a inner rest => inner.bodies ++ (.body (name a), inner) :: rest.bodies

/-- All lists, the outermost one last and as a given level. -/
def levels (level : Level) (t : Nested α) : List (Level × Nested α) :=
  t.bodies name ++ [(level, t)]

/-- Every member is in exactly one of the lists. -/
theorem levels_perm_members (level : Level) (t : Nested α) :
    ((t.levels name level).flatMap fun e => e.2.roots).Perm t.members := by
  rw [levels, List.flatMap_append, List.flatMap_singleton]
  induction t with
  | nil => exact .refl _
  | leaf a rest ih => exact List.perm_middle.trans (ih.cons a)
  | loop a inner rest ihInner ihRest =>
      rw [bodies, List.flatMap_append, List.flatMap_cons, roots, members, ← List.append_assoc]
      apply List.perm_middle.trans
      rw [List.append_assoc]
      exact (ihInner.append ihRest).cons a

/-- The names of the outermost loops. -/
def owners : Nested α → List String
  | nil => []
  | leaf _ rest => rest.owners
  | loop a _ rest => name a :: rest.owners

/-- Every list inside belongs to a loop of the outermost list or of a list inside. -/
theorem count_bodies (t : Nested α) (x : String) :
    ((t.bodies name).map Prod.fst).count (.body x) =
      (t.owners name).count x +
        ((t.bodies name).flatMap fun e => e.2.owners name).count x := by
  induction t with
  | nil => rfl
  | leaf a rest ih => exact ih
  | loop a inner rest ihInner ihRest =>
      simp only [bodies, owners, List.map_append, List.map_cons, List.flatMap_append,
        List.flatMap_cons, List.count_append, List.count_cons, ihInner, ihRest]
      by_cases hname : name a = x
      · simp only [hname, beq_self_eq_true, if_true]
        omega
      · have hbody : ¬ Level.body (name a) = .body x := fun h => hname (Level.body.inj h)
        simp only [beq_eq_false_iff_ne.mpr hname, beq_eq_false_iff_ne.mpr hbody]
        omega

/-- No list inside is the root. -/
theorem root_not_mem_bodies (t : Nested α) : Level.root ∉ (t.bodies name).map Prod.fst := by
  induction t with
  | nil => exact List.not_mem_nil
  | leaf a rest ih => exact ih
  | loop a inner rest ihInner ihRest =>
      simp only [bodies, List.map_append, List.map_cons, List.mem_append, List.mem_cons]
      rintro (hinner | hhere | hrest)
      · exact ihInner hinner
      · cases hhere
      · exact ihRest hrest

theorem bodies_inner_sublist (a : α) (inner rest : Nested α) :
    (inner.bodies name).Sublist ((loop a inner rest).bodies name) :=
  List.sublist_append_left _ _

theorem bodies_rest_sublist (a : α) (inner rest : Nested α) :
    (rest.bodies name).Sublist ((loop a inner rest).bodies name) :=
  (List.sublist_cons_self _ _).trans (List.sublist_append_right _ _)

theorem mem_bodies_loop (a : α) (inner rest : Nested α) :
    (.body (name a), inner) ∈ (loop a inner rest).bodies name :=
  List.mem_append_right _ List.mem_cons_self

/-- The lists inside of a list inside are inside. -/
theorem bodies_sublist_of_mem {t : Nested α} {e : Level × Nested α} (he : e ∈ t.bodies name) :
    (e.2.bodies name).Sublist (t.bodies name) := by
  induction t with
  | nil => cases he
  | leaf a rest ih => exact ih he
  | loop a inner rest ihInner ihRest =>
      simp only [bodies, List.mem_append, List.mem_cons] at he
      rcases he with hinner | rfl | hrest
      · exact (ihInner hinner).trans (bodies_inner_sublist name a inner rest)
      · exact bodies_inner_sublist name a inner rest
      · exact (ihRest hrest).trans (bodies_rest_sublist name a inner rest)

/-- From the root, every body belongs to exactly one loop of some list. -/
theorem count_levels_root (t : Nested α) (x : String) :
    ((t.levels name .root).map Prod.fst).count (.body x) =
      ((t.levels name .root).flatMap fun e => e.2.owners name).count x := by
  simp only [levels, List.map_append, List.flatMap_append, List.count_append, count_bodies]
  simp [Nat.add_comm]

theorem count_root_levels_root (t : Nested α) :
    ((t.levels name .root).map Prod.fst).count .root = 1 := by
  have hbodies := List.count_eq_zero_of_not_mem (t.root_not_mem_bodies name)
  simp only [levels, List.map_append, List.count_append, hbodies]
  rfl

theorem bodies_map (f : β → α) (t : Nested β) :
    (t.map f).bodies name = (t.bodies (name ∘ f)).map fun e => (e.1, e.2.map f) := by
  induction t with
  | nil => rfl
  | leaf a rest ih => exact ih
  | loop a inner rest ihInner ihRest => simp [map, bodies, ihInner, ihRest]

end Names

end Nested

end WorkflowGraph
