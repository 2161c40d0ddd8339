/-
# Sorting links when nodes are lost

Two placements are compared here, of which the second has lost some nodes that own no
body. Links that do not touch a lost node keep their class, and those that do become
dangling, whatever they were. So each class of the second partition but the last is a
filter of that class in the first, and so are the edges of its levels.
-/

import WorkflowGraph.Proofs.EdgeFates

namespace WorkflowGraph

/-- Whether a link leaves or enters a lost node. -/
def Link.touches (lost : List String) (l : Link) : Bool :=
  lost.contains l.source || lost.contains l.target

/-- Whether an edge leaves or enters a lost node. -/
def Edge.touches (lost : List String) (e : Edge) : Bool :=
  lost.contains e.source || lost.contains e.target

namespace Placement

/-- A placement that has lost nodes of another one. What is not lost means what it meant
before; what is lost lies nowhere any more, and it was neither on the root nor a loop-start
node nor the owner of a body. -/
structure Loses (lost : List String) (a b : Placement) : Prop where
  contains_eq : ∀ id ∉ lost, ∀ level, b.contains level id = a.contains level id
  levelOf?_eq : ∀ id ∉ lost, ∀ level, b.levelOf? id level = a.levelOf? id level
  startBody?_eq : ∀ id level, b.startBody? id level = a.startBody? id level
  gone : ∀ id ∈ lost, ∀ level, (id, level) ∉ b.nodes
  not_start : ∀ id ∈ lost, ∀ level, (id, level) ∉ a.starts
  not_root : ∀ id ∈ lost, (id, .root) ∉ a.nodes
  not_owner : ∀ id ∈ lost, ∀ other, (other, .body id) ∉ a.nodes

variable {lost : List String} {a b : Placement} (hloses : Loses lost a b)

include hloses

theorem Loses.contains_eq_false {id : String} (hid : id ∈ lost) (level : Level) :
    b.contains level id = false :=
  Bool.eq_false_iff.mpr fun hmem => hloses.gone id hid level (contains_iff.mp hmem)

/-- No body of a lost node holds anything. -/
theorem Loses.contains_body_eq_false {id : String} (hid : id ∈ lost) (other : String) :
    b.contains (.body id) other = false := by
  by_cases hother : other ∈ lost
  · exact hloses.contains_eq_false hother _
  · rw [hloses.contains_eq other hother]
    exact Bool.eq_false_iff.mpr fun hmem => hloses.not_owner id hid other (contains_iff.mp hmem)

theorem Loses.levelOf?_eq_none {id : String} (hid : id ∈ lost) (level : Level) :
    b.levelOf? id level = none :=
  (levelOf?_eq_none_iff level).mpr (hloses.gone id hid)

/-- A lost node means nothing as a source. -/
theorem Loses.origin?_eq_none {id : String} (hid : id ∈ lost) (level : Level) :
    b.origin? id level = none := by
  have hstart : b.startBody? id level = none := by
    rw [hloses.startBody?_eq]
    exact (startBody?_eq_none_iff level).mpr (hloses.not_start id hid)
  simp [origin?, hloses.levelOf?_eq_none hid, hstart]

end Placement

namespace Link

open Placement

variable {p : Platform} {lost : List String} {a b : Placement} {level : Level} {l : Link}

theorem touches_eq_true_iff : l.touches lost = true ↔ l.source ∈ lost ∨ l.target ∈ lost := by
  simp [touches]

theorem touches_eq_false_iff : l.touches lost = false ↔ l.source ∉ lost ∧ l.target ∉ lost := by
  simp [touches]

/-- Without a lost node, a link keeps its class. -/
theorem classify_of_untouched (hloses : Loses lost a b) (hfree : l.touches lost = false) :
    l.classify p level b = l.classify p level a := by
  obtain ⟨hsource, htarget⟩ := touches_eq_false_iff.mp hfree
  have horigin : b.origin? l.source level = a.origin? l.source level := by
    unfold origin?
    rw [hloses.levelOf?_eq _ hsource, hloses.startBody?_eq]
  unfold classify isLoopStart
  rw [horigin, hloses.contains_eq _ htarget, hloses.levelOf?_eq _ htarget]
  cases a.origin? l.source level with
  | none => rfl
  | some origin =>
      cases origin with
      | node source => simp only [hloses.contains_eq _ htarget]
      | start body => cases body <;> simp only [hloses.contains_eq _ htarget]

/-- With a lost node, a link dangles. -/
theorem classify_of_touches (hloses : Loses lost a b) (htouches : l.touches lost = true) :
    l.classify p level b = .dangling := by
  rcases touches_eq_true_iff.mp htouches with hsource | htarget
  · simp [classify, isLoopStart, hloses.contains_body_eq_false hsource,
      hloses.origin?_eq_none hsource]
  · rcases classify_cases p b level l with ⟨_, hin⟩ | ⟨_, _, hin, _⟩ | ⟨_, _, _, h⟩ |
      ⟨_, _, hin, _⟩ | ⟨_, _, _, ⟨hsome, _⟩ | ⟨_, h⟩⟩ | ⟨_, h⟩
    · exact absurd hin (by simp [hloses.contains_eq_false htarget])
    · exact absurd hin (by simp [hloses.contains_eq_false htarget])
    · exact h
    · exact absurd hin (by simp [hloses.contains_eq_false htarget])
    · exact absurd (hloses.levelOf?_eq_none htarget level) hsome
    · exact h
    · exact h

/-- Neither a link into a body nor the loop of the body starts from a lost node. -/
theorem not_lost_of_entry (hloses : Loses lost a b) {owner : String}
    (hclass : l.classify p level a = .entry owner) : l.source ∉ lost ∧ owner ∉ lost := by
  refine ⟨fun hmem => ?_, fun hmem => ?_⟩
  · rcases classify_cases p a level l with ⟨_, hin⟩ | ⟨_, horigin, _, _⟩ | ⟨_, _, _, h⟩ |
      ⟨_, _, _, h⟩ | ⟨_, _, _, ⟨_, h⟩ | ⟨_, h⟩⟩ | ⟨_, h⟩
    case inl => exact hloses.not_owner l.source hmem l.target (contains_iff.mp hin)
    case inr.inl =>
      exact hloses.not_start l.source hmem _
        (mem_starts_of_startBody? (startBody?_of_origin?_eq_start horigin))
    all_goals rw [h] at hclass; cases hclass
  · exact hloses.not_owner owner hmem l.target (contains_iff.mp (of_classify_eq_entry hclass))

end Link

namespace EdgePartition

open Placement

variable {p : Platform} {lost : List String} {a b : Placement}

/-- A class that is kept is what is left of it without the links that touch lost nodes. -/
theorem filter_classOf (hloses : Loses lost a b) (links : List (Level × Link)) {c : EdgeClass}
    (hc : c ≠ .dangling) :
    (links.filter fun listed => classOf p b listed = c) =
      (links.filter fun listed => classOf p a listed = c).filter fun listed =>
        !listed.2.touches lost := by
  rw [List.filter_filter]
  apply List.filter_congr
  intro listed _
  unfold classOf
  cases htouches : listed.2.touches lost with
  | true => simp [Link.classify_of_touches hloses htouches, hc.symm]
  | false => simp [Link.classify_of_untouched hloses htouches]

theorem onLevel_of_loses (hloses : Loses lost a b) (links : List (Level × Link))
    (level : Level) : (ofLinks p b links).onLevel level =
      ((ofLinks p a links).onLevel level).filter fun l => !l.touches lost := by
  rw [onLevel_ofLinks, onLevel_ofLinks, filter_classOf hloses links EdgeClass.noConfusion,
    List.filter_map]
  rfl

theorem entryEdges_of_loses (hloses : Loses lost a b) (links : List (Level × Link))
    (owner : String) : (ofLinks p b links).entryEdges owner =
      ((ofLinks p a links).entryEdges owner).filter fun e => !e.touches lost := by
  rw [entryEdges_ofLinks, entryEdges_ofLinks, filter_classOf hloses links EdgeClass.noConfusion,
    List.filter_map]
  congr 1
  apply List.filter_congr
  intro listed hlisted
  have hclass := of_decide_eq_true (List.mem_filter.mp hlisted).2
  obtain ⟨hsource, howner⟩ := Link.not_lost_of_entry hloses hclass
  simp [Link.touches, Edge.touches, Link.toEntryEdge, hsource, howner]

/-- The links that touch lost nodes are among the dangling ones. -/
theorem touched_sublist_dangling (hloses : Loses lost a b) (links : List (Level × Link)) :
    ((links.filter fun listed => listed.2.touches lost).map Prod.snd).Sublist
      (ofLinks p b links).dangling := by
  rw [dangling_ofLinks]
  apply List.Sublist.map
  apply List.monotone_filter_right
  intro listed htouches
  exact decide_eq_true (Link.classify_of_touches hloses htouches)

/-- On the root, no link touches a lost node. -/
theorem onLevel_root_of_loses (hloses : Loses lost a b) (links : List (Level × Link)) :
    (ofLinks p b links).onLevel .root = (ofLinks p a links).onLevel .root := by
  rw [onLevel_of_loses hloses]
  apply List.filter_eq_self.mpr
  intro l hl
  rw [onLevel_ofLinks] at hl
  obtain ⟨listed, hlisted, rfl⟩ := List.mem_map.mp hl
  obtain ⟨hsource, htarget⟩ :=
    Link.of_classify_eq_internal (of_decide_eq_true (List.mem_filter.mp hlisted).2)
  rw [Bool.not_eq_true', Link.touches_eq_false_iff]
  exact ⟨fun hmem => hloses.not_root _ hmem (contains_iff.mp hsource),
    fun hmem => hloses.not_root _ hmem (contains_iff.mp htarget)⟩

end EdgePartition

namespace EdgeFate

/-- Whether a fate tells of a link that leaves or enters a lost node. -/
def touches (lost : List String) : EdgeFate → Bool
  | .control e | .entry e => e.touches lost
  | .mixed _ source target | .dangling _ source target =>
    lost.contains source || lost.contains target

/-- Links and fates that are paired can be chosen together. -/
theorem Accounts.filter {links : List Link} {fates : List EdgeFate} (ha : Accounts links fates)
    {q : Link → Bool} {r : EdgeFate → Bool}
    (hsame : ∀ l ∈ links, ∀ fate ∈ fates, fate.TellsOf l → q l = r fate) :
    Accounts (links.filter q) (fates.filter r) := by
  obtain ⟨pairs, hlinks, hfates, htells⟩ := ha
  refine ⟨pairs.filter fun e => q e.1, ?_, ?_, fun e he => htells e (List.mem_filter.mp he).1⟩
  · have hchosen := hlinks.filter q
    rwa [List.filter_map] at hchosen
  · have hchosen := hfates.filter r
    rw [List.filter_map] at hchosen
    have hboth : (pairs.filter fun e => q e.1) = pairs.filter (r ∘ Prod.snd) :=
      List.filter_congr fun e he => hsame _ (hlinks.subset (List.mem_map_of_mem he)) _
        (hfates.subset (List.mem_map_of_mem he)) (htells e he)
    rwa [hboth]

end EdgeFate

namespace Assembly

variable (p : Platform) {part other : EdgePartition} {lost : List String} {level : Level}

/-- The nodes of a list that are not lost. -/
def remaining (lost : List String) (nodes : List Node) : List Node :=
  nodes.filter fun n => !lost.contains n.id

theorem lastNode?_remaining {id : String} (hid : id ∉ lost) (nodes : List Node) :
    lastNode? (remaining lost nodes) id = lastNode? nodes id := by
  unfold lastNode? remaining
  rw [← List.filter_reverse, List.find?_filter]
  congr 1
  funext n
  by_cases hn : n.id = id <;> simp [hn, hid]

/-- What is left of the edges of a level when nodes are lost with the links that touch
them. -/
theorem edges_remaining
    (hlinks : other.onLevel level = (part.onLevel level).filter fun l => !l.touches lost)
    (nodes : List Node) : edges p other level (remaining lost nodes) =
      (edges p part level nodes).filter fun e => !e.touches lost := by
  unfold edges sourced
  rw [hlinks, List.map_filterMap, List.map_filterMap, List.filterMap_filter,
    List.filter_filterMap]
  apply List.filterMap_congr
  intro l _
  rw [Option.map_map, Option.map_map]
  cases htouches : l.touches lost with
  | false =>
      have hedge : ∀ n, (l.toEdge p n).touches lost = false := fun _ => htouches
      rw [lastNode?_remaining (Link.touches_eq_false_iff.mp htouches).1]
      cases lastNode? nodes l.source <;> simp [Option.filter, hedge]
  | true =>
      have hedge : ∀ n, (l.toEdge p n).touches lost = true := fun _ => htouches
      cases lastNode? nodes l.source <;> simp [Option.filter, hedge]

end Assembly

end WorkflowGraph
