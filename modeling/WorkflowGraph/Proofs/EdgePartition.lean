/-
# Every link lands in one class, and each class means what it says

A placement is filled by a run of insertions, and the partition of a list of links
asks the placement where their ends lie. The classes of the partition are shown to
be filters of the list, so that no link is lost, doubled or moved, and each class is
tied back to the insertions themselves rather than to the lists that store them.
-/

import WorkflowGraph.EdgePartition

namespace WorkflowGraph

namespace Level

/-- What a look-up finds is one of the levels it was given. -/
theorem mem_of_nearest?_eq_some {levels : List Level} {level found : Level}
    (hfound : nearest? levels level = some found) : found ∈ levels := by
  unfold nearest? at hfound
  split at hfound
  next hmem =>
      obtain rfl := Option.some.inj hfound
      exact List.contains_iff_mem.mp hmem
  next => exact List.mem_of_head? hfound

/-- A look-up fails only among no levels. -/
theorem nearest?_eq_none_iff {levels : List Level} {level : Level} :
    nearest? levels level = none ↔ levels = [] := by
  unfold nearest?
  constructor
  · intro hnone
    split at hnone
    next => cases hnone
    next => exact List.head?_eq_none_iff.mp hnone
  · rintro rfl
    rfl

end Level

namespace Placement

/-- One insertion into a placement. -/
inductive Step
  | node (id : String) (level : Level)
  | start (id owner : String)
  deriving DecidableEq, Repr

/-- The placement after one more insertion. -/
def step (p : Placement) : Step → Placement
  | .node id level => p.insert id level
  | .start id owner => p.insertStart id owner

/-- The placement that a run of insertions builds. -/
def ofSteps (steps : List Step) : Placement :=
  steps.foldl step empty

theorem mem_addOnce {entries : List (String × Level)} {entry other : String × Level} :
    other ∈ addOnce entries entry ↔ other ∈ entries ∨ other = entry := by
  unfold addOnce
  split
  next hmem =>
      constructor
      · exact Or.inl
      · rintro (hold | rfl)
        · exact hold
        · exact List.contains_iff_mem.mp hmem
  next => simp

theorem mem_levelsOf {entries : List (String × Level)} {id : String} {level : Level} :
    level ∈ levelsOf entries id ↔ (id, level) ∈ entries := by
  simp [levelsOf]

theorem contains_iff {p : Placement} {level : Level} {id : String} :
    p.contains level id = true ↔ (id, level) ∈ p.nodes :=
  List.contains_iff_mem

/-- What one insertion adds to the nodes. -/
theorem mem_nodes_step {p : Placement} {s : Step} {id : String} {level : Level} :
    (id, level) ∈ (p.step s).nodes ↔ (id, level) ∈ p.nodes ∨ s = .node id level := by
  cases s with
  | node other place => simp [step, insert, mem_addOnce, eq_comm]
  | start other owner => simp [step, insertStart]

/-- What one insertion adds to the loop-start nodes. -/
theorem mem_starts_step {p : Placement} {s : Step} {id : String} {body : Level} :
    (id, body) ∈ (p.step s).starts ↔
      (id, body) ∈ p.starts ∨ ∃ owner, s = .start id owner ∧ body = .body owner := by
  cases s with
  | node other place => simp [step, insert]
  | start other owner =>
      simp only [step, insertStart, mem_addOnce, Prod.mk.injEq, Step.start.injEq]
      constructor
      · rintro (hold | ⟨rfl, rfl⟩)
        · exact Or.inl hold
        · exact Or.inr ⟨owner, ⟨rfl, rfl⟩, rfl⟩
      · rintro (hold | ⟨_, ⟨rfl, rfl⟩, rfl⟩)
        · exact Or.inl hold
        · exact Or.inr ⟨rfl, rfl⟩

theorem mem_nodes_foldl {steps : List Step} {p : Placement} {id : String} {level : Level} :
    (id, level) ∈ (steps.foldl step p).nodes ↔
      (id, level) ∈ p.nodes ∨ .node id level ∈ steps := by
  induction steps generalizing p with
  | nil => simp
  | cons s rest ih =>
      simp only [List.foldl_cons, ih, mem_nodes_step, List.mem_cons, or_assoc]
      simp only [eq_comm]

theorem mem_starts_foldl {steps : List Step} {p : Placement} {id : String} {body : Level} :
    (id, body) ∈ (steps.foldl step p).starts ↔
      (id, body) ∈ p.starts ∨ ∃ owner, .start id owner ∈ steps ∧ body = .body owner := by
  induction steps generalizing p with
  | nil => simp
  | cons s rest ih =>
      simp only [List.foldl_cons, ih, mem_starts_step, List.mem_cons, or_assoc]
      constructor
      · rintro (hold | ⟨owner, rfl, hbody⟩ | ⟨owner, hrest, hbody⟩)
        · exact Or.inl hold
        · exact Or.inr ⟨owner, Or.inl rfl, hbody⟩
        · exact Or.inr ⟨owner, Or.inr hrest, hbody⟩
      · rintro (hold | ⟨owner, hhere | hrest, hbody⟩)
        · exact Or.inl hold
        · exact Or.inr (Or.inl ⟨owner, hhere.symm, hbody⟩)
        · exact Or.inr (Or.inr ⟨owner, hrest, hbody⟩)

/-- A node lies on a level exactly when it was inserted there. -/
theorem contains_ofSteps_iff {steps : List Step} {level : Level} {id : String} :
    (ofSteps steps).contains level id = true ↔ .node id level ∈ steps := by
  rw [contains_iff, ofSteps, mem_nodes_foldl]
  simp [empty]

theorem mem_nodes_ofSteps_iff {steps : List Step} {id : String} {level : Level} :
    (id, level) ∈ (ofSteps steps).nodes ↔ .node id level ∈ steps := by
  rw [← contains_iff, contains_ofSteps_iff]

theorem contains_ofSteps_eq_false_iff {steps : List Step} {level : Level} {id : String} :
    (ofSteps steps).contains level id = false ↔ .node id level ∉ steps := by
  rw [← contains_ofSteps_iff, Bool.not_eq_true]

/-- A loop-start node is noted for a body exactly when it was inserted for its owner. -/
theorem mem_starts_ofSteps_iff {steps : List Step} {id : String} {body : Level} :
    (id, body) ∈ (ofSteps steps).starts ↔
      ∃ owner, .start id owner ∈ steps ∧ body = .body owner := by
  rw [ofSteps, mem_starts_foldl]
  simp [empty]

/-- The level that an id means is one on which the id lies. -/
theorem mem_nodes_of_levelOf? {p : Placement} {id : String} {level found : Level}
    (hfound : p.levelOf? id level = some found) : (id, found) ∈ p.nodes :=
  mem_levelsOf.mp (Level.mem_of_nearest?_eq_some hfound)

/-- An id means no level exactly when it lies on none. -/
theorem levelOf?_eq_none_iff {p : Placement} {id : String} (level : Level) :
    p.levelOf? id level = none ↔ ∀ other, (id, other) ∉ p.nodes := by
  unfold levelOf?
  rw [Level.nearest?_eq_none_iff, List.eq_nil_iff_forall_not_mem]
  exact forall_congr' fun other => not_congr mem_levelsOf

/-- The body that an id means is one that a loop-start node was left out of. -/
theorem mem_starts_of_startBody? {p : Placement} {id : String} {level found : Level}
    (hfound : p.startBody? id level = some found) : (id, found) ∈ p.starts :=
  mem_levelsOf.mp (Level.mem_of_nearest?_eq_some hfound)

theorem startBody?_eq_none_iff {p : Placement} {id : String} (level : Level) :
    p.startBody? id level = none ↔ ∀ other, (id, other) ∉ p.starts := by
  unfold startBody?
  rw [Level.nearest?_eq_none_iff, List.eq_nil_iff_forall_not_mem]
  exact forall_congr' fun other => not_congr mem_levelsOf

/-- What a source can mean: the level itself comes first, and nodes before starts. -/
theorem origin?_cases (p : Placement) (id : String) (level : Level) :
    (p.levelOf? id level = none ∧ p.origin? id level = (p.startBody? id level).map .start) ∨
    (∃ found, p.levelOf? id level = some found ∧ p.origin? id level = some (.node found)) ∨
    (p.startBody? id level = some level ∧ p.origin? id level = some (.start level)) := by
  unfold origin?
  cases hlevel : p.levelOf? id level with
  | none => cases hstart : p.startBody? id level <;> exact Or.inl ⟨rfl, rfl⟩
  | some found =>
      by_cases hhere : found = level
      · exact Or.inr (Or.inl ⟨found, rfl, if_pos hhere⟩)
      · by_cases hstart : p.startBody? id level = some level
        · exact Or.inr (Or.inr ⟨hstart, by simp [hhere, hstart]⟩)
        · exact Or.inr (Or.inl ⟨found, rfl, by simp [hhere, hstart]⟩)

/-- A source that means a node means it on the level of the look-up. -/
theorem levelOf?_of_origin?_eq_node {p : Placement} {id : String} {level found : Level}
    (horigin : p.origin? id level = some (.node found)) :
    p.levelOf? id level = some found := by
  rcases p.origin?_cases id level with ⟨_, heq⟩ | ⟨other, hlevel, heq⟩ | ⟨_, heq⟩ <;>
    rw [heq] at horigin
  · simp at horigin
  · simpa [hlevel] using horigin
  · cases horigin

/-- A source that means a loop-start node means one that was left out. -/
theorem startBody?_of_origin?_eq_start {p : Placement} {id : String} {level body : Level}
    (horigin : p.origin? id level = some (.start body)) :
    p.startBody? id level = some body := by
  rcases p.origin?_cases id level with ⟨_, heq⟩ | ⟨other, _, heq⟩ | ⟨hstart, heq⟩ <;>
    rw [heq] at horigin
  · simpa using horigin
  · cases horigin
  · simpa [hstart] using horigin

/-- A source that means nothing is neither a node nor a loop-start node. -/
theorem origin?_eq_none_iff {p : Placement} {id : String} {level : Level} :
    p.origin? id level = none ↔
      (∀ other, (id, other) ∉ p.nodes) ∧ ∀ other, (id, other) ∉ p.starts := by
  rw [← levelOf?_eq_none_iff level, ← startBody?_eq_none_iff level]
  rcases p.origin?_cases id level with ⟨hlevel, heq⟩ | ⟨found, hlevel, heq⟩ | ⟨hstart, heq⟩
  · simp [heq, hlevel]
  · simp [heq, hlevel]
  · simp [heq, hstart]

end Placement

namespace Link

variable {p : Platform} {placement : Placement} {level : Level} {l : Link}

/-- What the class of a link can be, with the look-up that decides it. -/
theorem classify_cases (p : Platform) (placement : Placement) (level : Level) (l : Link) :
    (l.classify p level placement = .entry l.source ∧
      placement.contains (.body l.source) l.target = true) ∨
    (∃ owner, placement.origin? l.source level = some (.start (.body owner)) ∧
      placement.contains (.body owner) l.target = true ∧
      l.classify p level placement = .entry owner) ∨
    (∃ body, placement.origin? l.source level = some (.start body) ∧
      (∀ owner, body = .body owner → placement.contains (.body owner) l.target = false) ∧
      l.classify p level placement = .dangling) ∨
    (∃ source, placement.origin? l.source level = some (.node source) ∧
      placement.contains source l.target = true ∧
      l.classify p level placement = .internal source) ∨
    (∃ source, placement.origin? l.source level = some (.node source) ∧
      placement.contains source l.target = false ∧
      ((placement.levelOf? l.target level ≠ none ∧ l.classify p level placement = .mixed) ∨
        (placement.levelOf? l.target level = none ∧
          l.classify p level placement = .dangling))) ∨
    (placement.origin? l.source level = none ∧ l.classify p level placement = .dangling) := by
  unfold classify
  by_cases hstart : l.isLoopStart p placement = true
  · have htarget : placement.contains (.body l.source) l.target = true := by
      simp only [isLoopStart, Bool.and_eq_true] at hstart
      exact hstart.2
    exact Or.inl ⟨if_pos hstart, htarget⟩
  · rw [if_neg hstart]
    cases horigin : placement.origin? l.source level with
    | none => simp
    | some origin =>
        cases origin with
        | start body =>
            cases body with
            | root => simp
            | body owner => cases hin : placement.contains (.body owner) l.target <;> simp [hin]
        | node source =>
            cases hin : placement.contains source l.target
            · cases htarget : placement.levelOf? l.target level <;> simp [hin]
            · simp [hin]

/-- An internal link joins two nodes of its level. -/
theorem of_classify_eq_internal {source : Level}
    (hclass : l.classify p level placement = .internal source) :
    placement.contains source l.source = true ∧ placement.contains source l.target = true := by
  rcases classify_cases p placement level l with ⟨h, _⟩ | ⟨_, _, _, h⟩ | ⟨_, _, _, h⟩ |
    ⟨found, horigin, htarget, h⟩ | ⟨_, _, _, ⟨_, h⟩ | ⟨_, h⟩⟩ | ⟨_, h⟩ <;>
    rw [h] at hclass
  case inr.inr.inr.inl =>
    obtain rfl := EdgeClass.internal.inj hclass
    have hlevel := Placement.levelOf?_of_origin?_eq_node horigin
    exact ⟨Placement.contains_iff.mpr (Placement.mem_nodes_of_levelOf? hlevel), htarget⟩
  all_goals cases hclass

/-- The target of an entry edge lies in the body of its loop. -/
theorem of_classify_eq_entry {owner : String}
    (hclass : l.classify p level placement = .entry owner) :
    placement.contains (.body owner) l.target = true := by
  rcases classify_cases p placement level l with ⟨h, htarget⟩ | ⟨_, _, htarget, h⟩ |
    ⟨_, _, _, h⟩ | ⟨_, _, _, h⟩ | ⟨_, _, _, ⟨_, h⟩ | ⟨_, h⟩⟩ | ⟨_, h⟩ <;>
    rw [h] at hclass
  case inl => exact EdgeClass.entry.inj hclass ▸ htarget
  case inr.inl => exact EdgeClass.entry.inj hclass ▸ htarget
  all_goals cases hclass

/-- The ends of a mixed link both lie somewhere, the target not where the source is
found. -/
theorem of_classify_eq_mixed (hclass : l.classify p level placement = .mixed) :
    ∃ source, placement.origin? l.source level = some (.node source) ∧
      placement.contains source l.target = false ∧
      placement.levelOf? l.target level ≠ none := by
  rcases classify_cases p placement level l with ⟨h, _⟩ | ⟨_, _, _, h⟩ | ⟨_, _, _, h⟩ |
    ⟨_, _, _, h⟩ | ⟨source, horigin, houtside, ⟨htarget, h⟩ | ⟨_, h⟩⟩ | ⟨_, h⟩ <;>
    rw [h] at hclass
  case inr.inr.inr.inr.inl.inl =>
    exact ⟨source, horigin, houtside, htarget⟩
  all_goals cases hclass

/-- Why a link dangles: its source means nothing, its target lies nowhere, or its source
is the start of a body that does not hold its target. -/
theorem of_classify_eq_dangling (hclass : l.classify p level placement = .dangling) :
    placement.origin? l.source level = none ∨ placement.levelOf? l.target level = none ∨
      ∃ body, placement.origin? l.source level = some (.start body) ∧
        ∀ owner, body = .body owner → placement.contains (.body owner) l.target = false := by
  rcases classify_cases p placement level l with ⟨h, _⟩ | ⟨_, _, _, h⟩ |
    ⟨body, horigin, houtside, _⟩ | ⟨_, _, _, h⟩ | ⟨_, _, _, ⟨_, h⟩ | ⟨hnowhere, _⟩⟩ |
    ⟨hnone, _⟩
  case inr.inr.inl => exact Or.inr (Or.inr ⟨body, horigin, houtside⟩)
  case inr.inr.inr.inr.inl.inr => exact Or.inr (Or.inl hnowhere)
  case inr.inr.inr.inr.inr => exact Or.inl hnone
  all_goals rw [h] at hclass; cases hclass

end Link

namespace EdgePartition

section Sorting

variable (p : Platform) (placement : Placement)

/-- The class of a link together with the level on which it is listed. -/
def classOf (listed : Level × Link) : EdgeClass :=
  listed.2.classify p listed.1 placement

theorem onLevel_ofLinks (links : List (Level × Link)) (level : Level) :
    (ofLinks p placement links).onLevel level =
      (links.filter fun listed => classOf p placement listed = .internal level).map
        Prod.snd := by
  induction links with
  | nil => rfl
  | cons listed rest ih =>
      unfold onLevel at ih ⊢
      cases hclass : classOf p placement listed with
      | internal other =>
          by_cases hother : other = level <;>
            simp_all [ofLinks, cons, classOf]
      | entry owner => simp_all [ofLinks, cons, classOf]
      | mixed => simp_all [ofLinks, cons, classOf]
      | dangling => simp_all [ofLinks, cons, classOf]

theorem entryEdges_ofLinks (links : List (Level × Link)) (owner : String) :
    (ofLinks p placement links).entryEdges owner =
      (links.filter fun listed => classOf p placement listed = .entry owner).map fun listed =>
        listed.2.toEntryEdge owner := by
  induction links with
  | nil => rfl
  | cons listed rest ih =>
      unfold entryEdges at ih ⊢
      cases hclass : classOf p placement listed with
      | internal level => simp_all [ofLinks, cons, classOf]
      | entry other =>
          by_cases hother : other = owner <;>
            simp_all [ofLinks, cons, classOf]
      | mixed => simp_all [ofLinks, cons, classOf]
      | dangling => simp_all [ofLinks, cons, classOf]

theorem mixed_ofLinks (links : List (Level × Link)) :
    (ofLinks p placement links).mixed =
      (links.filter fun listed => classOf p placement listed = .mixed).map Prod.snd := by
  induction links with
  | nil => rfl
  | cons listed rest ih =>
      cases hclass : classOf p placement listed <;> simp_all [ofLinks, cons, classOf]

theorem dangling_ofLinks (links : List (Level × Link)) :
    (ofLinks p placement links).dangling =
      (links.filter fun listed => classOf p placement listed = .dangling).map Prod.snd := by
  induction links with
  | nil => rfl
  | cons listed rest ih =>
      cases hclass : classOf p placement listed <;> simp_all [ofLinks, cons, classOf]

/-- One more link makes the partition one larger, whatever its class. -/
theorem size_cons (l : Link) (c : EdgeClass) (part : EdgePartition) :
    (cons l c part).size = part.size + 1 := by
  cases c <;> simp only [cons, size, List.length_cons] <;> omega

theorem size_ofLinks (links : List (Level × Link)) :
    (ofLinks p placement links).size = links.length := by
  induction links with
  | nil => rfl
  | cons listed rest ih => rw [ofLinks, size_cons, ih, List.length_cons]

end Sorting

/-- A partition sorts links by their class: each of its lists holds exactly the links
given that class, in the order in which they are listed. -/
structure Sorts (classOf : Level × Link → EdgeClass) (links : List (Level × Link))
    (part : EdgePartition) : Prop where
  internal : ∀ level, part.onLevel level =
    (links.filter fun listed => classOf listed = .internal level).map Prod.snd
  entries : ∀ owner, part.entryEdges owner =
    (links.filter fun listed => classOf listed = .entry owner).map fun listed =>
      listed.2.toEntryEdge owner
  mixed : part.mixed = (links.filter fun listed => classOf listed = .mixed).map Prod.snd
  dangling : part.dangling =
    (links.filter fun listed => classOf listed = .dangling).map Prod.snd
  size : part.size = links.length

/-- The classes of a partition say the truth about the insertions `steps`. -/
structure Sound (steps : List Placement.Step) (links : List (Level × Link))
    (part : EdgePartition) : Prop where
  internal : ∀ level, ∀ l ∈ part.onLevel level,
    .node l.source level ∈ steps ∧ .node l.target level ∈ steps
  entries : ∀ owner, ∀ e ∈ part.entryEdges owner,
    e.source = owner ∧ e.kind = .iterationStart ∧ .node e.target (.body owner) ∈ steps
  mixed : ∀ l ∈ part.mixed, ∃ listedOn, (listedOn, l) ∈ links ∧
    ∃ source, (Placement.ofSteps steps).origin? l.source listedOn = some (.node source) ∧
      .node l.source source ∈ steps ∧ .node l.target source ∉ steps ∧
      ∃ other, .node l.target other ∈ steps
  dangling : ∀ l ∈ part.dangling, ∃ listedOn, (listedOn, l) ∈ links ∧
    ((∀ level, .node l.source level ∉ steps) ∧ (∀ owner, .start l.source owner ∉ steps) ∨
      (∀ level, .node l.target level ∉ steps) ∨
      ∃ owner, (Placement.ofSteps steps).origin? l.source listedOn = some (.start (.body owner)) ∧
        .start l.source owner ∈ steps ∧ .node l.target (.body owner) ∉ steps)

section Soundness

variable (p : Platform) (steps : List Placement.Step) (links : List (Level × Link))

theorem sorts_ofLinks (placement : Placement) :
    Sorts (classOf p placement) links (ofLinks p placement links) where
  internal := onLevel_ofLinks p placement links
  entries := entryEdges_ofLinks p placement links
  mixed := mixed_ofLinks p placement links
  dangling := dangling_ofLinks p placement links
  size := size_ofLinks p placement links

/-- The dangling links, read back to the insertions: the look-up that failed names the
insertions that are missing. -/
theorem dangling_of_classOf {listed : Level × Link}
    (hclass : classOf p (Placement.ofSteps steps) listed = .dangling) :
    (∀ level, .node listed.2.source level ∉ steps) ∧
        (∀ owner, .start listed.2.source owner ∉ steps) ∨
      (∀ level, .node listed.2.target level ∉ steps) ∨
      ∃ owner, (Placement.ofSteps steps).origin? listed.2.source listed.1 =
          some (.start (.body owner)) ∧
        .start listed.2.source owner ∈ steps ∧ .node listed.2.target (.body owner) ∉ steps := by
  rcases Link.of_classify_eq_dangling hclass with hnone | hnowhere | ⟨body, horigin, houtside⟩
  · obtain ⟨hnodes, hstarts⟩ := Placement.origin?_eq_none_iff.mp hnone
    refine Or.inl ⟨fun level hmem => ?_, fun owner hmem => ?_⟩
    · exact hnodes level (Placement.mem_nodes_ofSteps_iff.mpr hmem)
    · exact hstarts (.body owner) (Placement.mem_starts_ofSteps_iff.mpr ⟨owner, hmem, rfl⟩)
  · refine Or.inr (Or.inl fun level hmem => ?_)
    exact (Placement.levelOf?_eq_none_iff _).mp hnowhere level
      (Placement.mem_nodes_ofSteps_iff.mpr hmem)
  · have hstart := Placement.mem_starts_of_startBody?
      (Placement.startBody?_of_origin?_eq_start horigin)
    obtain ⟨owner, hmem, rfl⟩ := Placement.mem_starts_ofSteps_iff.mp hstart
    exact Or.inr (Or.inr ⟨owner, horigin, hmem,
      Placement.contains_ofSteps_eq_false_iff.mp (houtside owner rfl)⟩)

theorem sound_ofLinks : Sound steps links (ofLinks p (Placement.ofSteps steps) links) where
  internal := by
    intro level l hl
    rw [onLevel_ofLinks] at hl
    obtain ⟨listed, hlisted, rfl⟩ := List.mem_map.mp hl
    have hclass := of_decide_eq_true (List.mem_filter.mp hlisted).2
    obtain ⟨hsource, htarget⟩ := Link.of_classify_eq_internal hclass
    exact ⟨Placement.contains_ofSteps_iff.mp hsource, Placement.contains_ofSteps_iff.mp htarget⟩
  entries := by
    intro owner e he
    rw [entryEdges_ofLinks] at he
    obtain ⟨listed, hlisted, rfl⟩ := List.mem_map.mp he
    have hclass := of_decide_eq_true (List.mem_filter.mp hlisted).2
    have htarget := Link.of_classify_eq_entry hclass
    exact ⟨rfl, rfl, Placement.contains_ofSteps_iff.mp htarget⟩
  mixed := by
    intro l hl
    rw [mixed_ofLinks] at hl
    obtain ⟨listed, hlisted, rfl⟩ := List.mem_map.mp hl
    obtain ⟨hmem, hclass⟩ := List.mem_filter.mp hlisted
    obtain ⟨source, horigin, houtside, htarget⟩ :=
      Link.of_classify_eq_mixed (of_decide_eq_true hclass)
    have hsource := Placement.levelOf?_of_origin?_eq_node horigin
    obtain ⟨other, hother⟩ := Option.ne_none_iff_exists'.mp htarget
    refine ⟨listed.1, hmem, source, horigin, ?_, ?_, other, ?_⟩
    · exact Placement.mem_nodes_ofSteps_iff.mp (Placement.mem_nodes_of_levelOf? hsource)
    · exact Placement.contains_ofSteps_eq_false_iff.mp houtside
    · exact Placement.mem_nodes_ofSteps_iff.mp (Placement.mem_nodes_of_levelOf? hother)
  dangling := by
    intro l hl
    rw [dangling_ofLinks] at hl
    obtain ⟨listed, hlisted, rfl⟩ := List.mem_map.mp hl
    obtain ⟨hmem, hclass⟩ := List.mem_filter.mp hlisted
    exact ⟨listed.1, hmem, dangling_of_classOf p steps (of_decide_eq_true hclass)⟩

/-- Whatever was inserted into the placement, sorting a list of links gives every link
one class and keeps the order inside each class. The links kept on a level have both
ends there, entry edges lead from a loop into its body, mixed links join nodes of
different levels, and a dangling link has an end that is not where it should be. -/
theorem ofLinks_sorts_soundly :
    Sorts (classOf p (Placement.ofSteps steps)) links
        (ofLinks p (Placement.ofSteps steps) links) ∧
      Sound steps links (ofLinks p (Placement.ofSteps steps) links) :=
  ⟨sorts_ofLinks p links _, sound_ofLinks p steps links⟩

end Soundness

end EdgePartition

end WorkflowGraph
