/-
# Putting the levels together again

The assembly looks every body up by the id of its loop and takes it out of the table.
It is given a recursion of its own here, without a bound on the depth, and it is shown
when it rebuilds a nesting of nodes from its levels: whenever the table serves each loop
with its own list, which it does if no two loops of different levels share an id.
-/

import WorkflowGraph.Conversion
import WorkflowGraph.Proofs.Nested
import WorkflowGraph.Proofs.WellFormed

namespace WorkflowGraph

namespace LevelTable

/-- The nodes that are stored for a level. -/
def nodes (t : LevelTable) (level : Level) : List Node :=
  (t.lookup level).getD []

/-- The table without a level. -/
def without (t : LevelTable) (level : Level) : LevelTable :=
  t.filter fun entry => entry.1 != level

theorem lookup_without (t : LevelTable) (level other : Level) :
    (t.without level).lookup other = if other = level then none else t.lookup other := by
  unfold without
  induction t with
  | nil => simp
  | cons entry t ih =>
      obtain ⟨key, ns⟩ := entry
      by_cases hkey : key = level
      · subst hkey
        simp only [List.filter_cons, bne_self_eq_false, Bool.false_eq_true, if_false, ih,
          List.lookup_cons]
        by_cases hother : other = key
        · simp [hother]
        · simp [hother, beq_eq_false_iff_ne.mpr hother]
      · simp only [List.filter_cons, bne_iff_ne, ne_eq, hkey, not_false_eq_true, if_true,
          List.lookup_cons, ih]
        by_cases hother : other = key
        · subst hother
          simp [hkey]
        · simp [beq_eq_false_iff_ne.mpr hother]

theorem without_eq_self {t : LevelTable} {level : Level} (habsent : t.lookup level = none) :
    t.without level = t := by
  apply List.filter_eq_self.mpr
  intro entry hentry
  have hkey : level ≠ entry.1 := by
    simpa using List.lookup_eq_none_iff.mp habsent entry hentry
  exact bne_iff_ne.mpr hkey.symm

theorem length_without_le (t : LevelTable) (level : Level) :
    (t.without level).length ≤ t.length :=
  List.length_filter_le _ _

theorem length_without_lt {t : LevelTable} {level : Level} {ns : List Node}
    (hfound : t.lookup level = some ns) : (t.without level).length < t.length := by
  obtain ⟨before, after, rfl, -⟩ := List.lookup_eq_some_iff.mp hfound
  have hbefore := length_without_le before level
  have hafter := length_without_le after level
  unfold without at hbefore hafter ⊢
  simp only [List.filter_append, List.filter_cons, bne_self_eq_false, Bool.false_eq_true,
    if_false, List.length_append, List.length_cons]
  omega

theorem mem_of_mem_ofLevels {levels : List (Level × List Node)} {e : Level × List Node}
    (he : e ∈ ofLevels levels) : e ∈ levels := by
  rw [ofLevels, ← List.foldr_reverse] at he
  rw [← List.mem_reverse]
  revert he
  induction levels.reverse with
  | nil => exact fun he => he
  | cons entry rest ih =>
      intro he
      rw [List.foldr_cons, put, List.mem_append, List.mem_filter] at he
      rcases he with ⟨hold, -⟩ | hnew
      · exact List.mem_cons_of_mem _ (ih hold)
      · obtain rfl := List.mem_singleton.mp hnew
        exact List.mem_cons_self

/-- The table keeps the last nodes of each level. -/
theorem lookup_ofLevels (levels : List (Level × List Node)) (level : Level) :
    (ofLevels levels).lookup level = levels.reverse.lookup level := by
  rw [ofLevels, ← List.foldr_reverse]
  induction levels.reverse with
  | nil => rfl
  | cons entry rest ih =>
      obtain ⟨key, ns⟩ := entry
      rw [List.foldr_cons, put, ← without, List.lookup_append, lookup_without, ih]
      by_cases hlevel : level = key
      · simp [hlevel]
      · simp [List.lookup_cons, hlevel, beq_eq_false_iff_ne.mpr hlevel]

end LevelTable

namespace Node

/-- An iteration node with a body and its entry edges; any other node stays as it is. -/
def withBody (part : EdgePartition) (n : Node) (body : Graph) : Node :=
  (n.reattach? body (part.entryEdges n.id)).getD n

@[simp] theorem withBody_id (part : EdgePartition) (n : Node) (body : Graph) :
    (n.withBody part body).id = n.id := by
  unfold withBody reattach?
  cases n.config <;> rfl

end Node

namespace Assembly

variable {p : Platform} {part : EdgePartition}

/-! The bound on the depth of the assembly is never reached, since every level that is
entered leaves the table. -/

theorem attachBodies_cons_of_iteration (inner : Level → LevelTable → Assembled Graph)
    {n : Node} (hkind : n.kind = .iteration) (ns : List Node) (t : LevelTable) :
    attachBodies part inner (n :: ns) t =
      ⟨n.withBody part (inner (.body n.id) t).value ::
          (attachBodies part inner ns (inner (.body n.id) t).rest).value,
        (inner (.body n.id) t).diagnostics ++
          (attachBodies part inner ns (inner (.body n.id) t).rest).diagnostics,
        (attachBodies part inner ns (inner (.body n.id) t).rest).rest⟩ :=
  if_pos hkind

theorem attachBodies_cons_of_ne (inner : Level → LevelTable → Assembled Graph)
    {n : Node} (hkind : n.kind ≠ .iteration) (ns : List Node) (t : LevelTable) :
    attachBodies part inner (n :: ns) t =
      ⟨n :: (attachBodies part inner ns t).value, (attachBodies part inner ns t).diagnostics,
        (attachBodies part inner ns t).rest⟩ :=
  if_neg hkind

theorem attachBodies_congr {inner other : Level → LevelTable → Assembled Graph} {n : Nat}
    (hsame : ∀ level t, t.length ≤ n → inner level t = other level t)
    (hshorter : ∀ level t, (inner level t).rest.length ≤ t.length) (ns : List Node) :
    ∀ t : LevelTable, t.length ≤ n →
      attachBodies part inner ns t = attachBodies part other ns t := by
  induction ns with
  | nil => exact fun _ _ => rfl
  | cons m ns ih =>
      intro t ht
      by_cases hkind : m.kind = .iteration
      · have hrest := Nat.le_trans (hshorter (.body m.id) t) ht
        rw [attachBodies_cons_of_iteration _ hkind, attachBodies_cons_of_iteration _ hkind,
          ih _ hrest, hsame _ _ ht]
      · rw [attachBodies_cons_of_ne _ hkind, attachBodies_cons_of_ne _ hkind, ih _ ht]

theorem length_rest_attachBodies_le {inner : Level → LevelTable → Assembled Graph}
    (hshorter : ∀ level t, (inner level t).rest.length ≤ t.length) (ns : List Node) :
    ∀ t : LevelTable, (attachBodies part inner ns t).rest.length ≤ t.length := by
  induction ns with
  | nil => exact fun _ => Nat.le_refl _
  | cons m ns ih =>
      intro t
      by_cases hkind : m.kind = .iteration
      · rw [attachBodies_cons_of_iteration _ hkind]
        exact Nat.le_trans (ih _) (hshorter _ _)
      · rw [attachBodies_cons_of_ne _ hkind]
        exact ih _

theorem isSome_lastNode?_iff (nodes : List Node) (id : String) :
    (lastNode? nodes id).isSome ↔ id ∈ nodes.map Node.id := by
  simp [lastNode?]

/-- What a level comes to, once its nodes have their bodies. -/
def close (p : Platform) (part : EdgePartition) (level : Level)
    (attached : Assembled (List Node)) : Assembled Graph :=
  ⟨⟨attached.value, edges p part level attached.value⟩,
    attached.diagnostics ++ levelFindings p part level attached.value, attached.rest⟩

theorem close_nil (level : Level) (t : LevelTable) :
    close p part level ⟨[], [], t⟩ = ⟨.empty, [], t⟩ := by
  have hnone : ∀ l : Link, (lastNode? [] l.source).map (fun n => (l, n)) = none := fun _ => rfl
  simp [close, edges, levelFindings, sourced, hnone, Graph.empty]

/-- One step of the assembly, for every bound. -/
theorem within_succ (n : Nat) (level : Level) (t : LevelTable) :
    within p part (n + 1) level t =
      close p part level
        (attachBodies part (within p part n) (t.nodes level) (t.without level)) := by
  rw [within, LevelTable.take?]
  cases hlookup : t.lookup level with
  | none =>
      have hempty : t.nodes level = [] := by simp [LevelTable.nodes, hlookup]
      rw [hempty, LevelTable.without_eq_self hlookup, attachBodies, close_nil]
      rfl
  | some ns =>
      have hnodes : t.nodes level = ns := by simp [LevelTable.nodes, hlookup]
      rw [hnodes]
      rfl

theorem length_rest_within_le (n : Nat) :
    ∀ level t, (within p part n level t).rest.length ≤ t.length := by
  induction n with
  | zero => exact fun _ _ => Nat.le_refl _
  | succ n ih =>
      intro level t
      rw [within_succ]
      exact Nat.le_trans (length_rest_attachBodies_le ih _ _) (t.length_without_le level)

theorem within_nil (n : Nat) (level : Level) :
    within p part n level [] = ⟨.empty, [], []⟩ := by
  cases n with
  | zero => rfl
  | succ n =>
      rw [within_succ]
      exact close_nil level []

/-- All bounds that reach the length of the table are equally good. -/
theorem within_eq_within (n : Nat) :
    ∀ m level t, t.length ≤ n → t.length ≤ m →
      within p part n level t = within p part m level t := by
  induction n with
  | zero =>
      intro m level t hn _
      obtain rfl := List.eq_nil_of_length_eq_zero (Nat.le_zero.mp hn)
      rw [within_nil, within_nil]
  | succ n ih =>
      intro m level t hn hm
      cases m with
      | zero =>
          obtain rfl := List.eq_nil_of_length_eq_zero (Nat.le_zero.mp hm)
          rw [within_nil, within_nil]
      | succ m =>
          rw [within_succ, within_succ]
          cases hlookup : t.lookup level with
          | none =>
              have hempty : t.nodes level = [] := by simp [LevelTable.nodes, hlookup]
              rw [hempty, attachBodies, attachBodies]
          | some ns =>
              have hshorter := LevelTable.length_without_lt hlookup
              rw [attachBodies_congr (n := (t.without level).length) _ (length_rest_within_le n)
                _ _ (Nat.le_refl _)]
              exact fun level t ht => ih m level t (by omega) (by omega)

/-- The assembly of a level, by recursion over the table. -/
theorem ofLevel_eq (level : Level) (t : LevelTable) :
    ofLevel p part level t =
      close p part level
        (attachBodies part (ofLevel p part) (t.nodes level) (t.without level)) := by
  rw [ofLevel, within_eq_within t.length (t.length + 1) level t (Nat.le_refl _) (Nat.le_succ _),
    within_succ, attachBodies_congr (n := t.length) _ (length_rest_within_le t.length) _ _
      (t.length_without_le level)]
  exact fun level other hother => within_eq_within _ _ level other hother (Nat.le_refl _)

section Recursion

variable (p : Platform) (part : EdgePartition)

/-- The nodes of a nesting, each loop with the list inside it as its body. -/
def attached : Nested Node → List Node
  | .nil => []
  | .leaf n rest =>
    (if n.kind = .iteration then n.withBody part .empty else n) :: attached rest
  | .loop n inner rest =>
    n.withBody part ⟨attached inner, edges p part (.body n.id) (attached inner)⟩ :: attached rest

/-- The findings for the edges inside the loops of a nesting. -/
def innerFindings : Nested Node → List Diagnostic
  | .nil => []
  | .leaf _ rest => innerFindings rest
  | .loop n inner rest =>
    innerFindings inner ++ levelFindings p part (.body n.id) (attached p part inner)
      ++ innerFindings rest

/-- The graph of a nesting. -/
def graph (level : Level) (f : Nested Node) : Graph :=
  ⟨attached p part f, edges p part level (attached p part f)⟩

theorem ids_attached (f : Nested Node) :
    (attached p part f).map Node.id = f.roots.map Node.id := by
  induction f with
  | nil => rfl
  | leaf n rest ih =>
      rw [attached, Nested.roots, List.map_cons, List.map_cons, ih]
      split <;> simp
  | loop n inner rest _ ih =>
      rw [attached, Nested.roots, List.map_cons, List.map_cons, ih, Node.withBody_id]

end Recursion

/-- The levels that the iteration nodes of a nesting ask for. -/
def asked : Nested Node → List Level
  | .nil => []
  | .leaf n rest => if n.kind = .iteration then .body n.id :: asked rest else asked rest
  | .loop n inner rest => .body n.id :: asked inner ++ asked rest

/-- The table once every iteration node of a nesting has taken its level. -/
def leftover (t : LevelTable) : Nested Node → LevelTable
  | .nil => t
  | .leaf n rest =>
    leftover (if n.kind = .iteration then t.without (.body n.id) else t) rest
  | .loop n inner rest => leftover (leftover (t.without (.body n.id)) inner) rest

/-- Each iteration node of a nesting, when its turn comes, finds a list like the one
inside it. -/
inductive Serves (alike : List Node → List Node → Prop) : LevelTable → Nested Node → Prop
  | nil {t : LevelTable} : Serves alike t .nil
  | plain {t : LevelTable} {n : Node} {rest : Nested Node} :
      n.kind ≠ .iteration → Serves alike t rest → Serves alike t (.leaf n rest)
  | bare {t : LevelTable} {n : Node} {rest : Nested Node} :
      n.kind = .iteration → alike (t.nodes (.body n.id)) [] →
        Serves alike (t.without (.body n.id)) rest → Serves alike t (.leaf n rest)
  | loop {t : LevelTable} {n : Node} {inner rest : Nested Node} :
      n.kind = .iteration → alike (t.nodes (.body n.id)) inner.roots →
        Serves alike (t.without (.body n.id)) inner →
          Serves alike (leftover (t.without (.body n.id)) inner) rest →
            Serves alike t (.loop n inner rest)

theorem lookup_leftover (f : Nested Node) (level : Level) :
    ∀ t, (leftover t f).lookup level = if level ∈ asked f then none else t.lookup level := by
  induction f with
  | nil => intro t; simp [leftover, asked]
  | leaf n rest ih =>
      intro t
      unfold leftover asked
      split
      · rw [ih, LevelTable.lookup_without]
        grind
      · exact ih t
  | loop n inner rest ihInner ihRest =>
      intro t
      unfold leftover asked
      rw [ihRest, ihInner, LevelTable.lookup_without]
      grind

/-- A table that serves a nesting gives its loops their bodies. -/
theorem Serves.attachBodies_eq {t : LevelTable} {f : Nested Node} (hserves : Serves Eq t f) :
    attachBodies part (ofLevel p part) f.roots t =
      ⟨attached p part f, innerFindings p part f, leftover t f⟩ := by
  induction hserves with
  | nil => rfl
  | plain hkind _ ih =>
      rw [Nested.roots, attachBodies_cons_of_ne _ hkind, ih]
      simp [attached, innerFindings, leftover, hkind]
  | bare hkind hnone _ ih =>
      rw [Nested.roots, attachBodies_cons_of_iteration _ hkind, ofLevel_eq, hnone, attachBodies,
        close_nil, ih]
      simp [attached, innerFindings, leftover, hkind]
  | loop hkind hfound _ _ ihInner ihRest =>
      rw [Nested.roots, attachBodies_cons_of_iteration _ hkind, ofLevel_eq, hfound, ihInner, close,
        ihRest]
      simp [attached, innerFindings, leftover]

/-- A table that stores the root of a nesting and serves the rest of it is put together
to the graph of the nesting. -/
theorem ofLevel_of_serves {t : LevelTable} {level : Level} {f : Nested Node}
    (hroot : t.nodes level = f.roots) (hserves : Serves Eq (t.without level) f) :
    ofLevel p part level t = ⟨graph p part level f,
      innerFindings p part f ++ levelFindings p part level (attached p part f),
      leftover (t.without level) f⟩ := by
  rw [ofLevel_eq, hroot, hserves.attachBodies_eq]
  rfl

end Assembly

end WorkflowGraph
