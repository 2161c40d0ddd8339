/-
# The level on which a link is listed

The ends of a link are looked up on the level on which the link is listed, and elsewhere
only if they are not found there. So the nodes of a level keep the links between them,
however many other levels repeat their ids and in whatever order they were placed. Where
no id is repeated at all, it makes no difference on which level a link is listed: the
links of a document may as well stand in one list at its root.
-/

import WorkflowGraph.Proofs.EdgePartition

namespace WorkflowGraph

namespace Level

/-- A level that is among those of a list is the nearest to itself. -/
theorem nearest?_of_mem {levels : List Level} {level : Level} (hmem : level ∈ levels) :
    nearest? levels level = some level :=
  if_pos (List.contains_iff_mem.mpr hmem)

/-- Where a list names one level only, that level is the nearest from everywhere. -/
theorem nearest?_eq_head? {levels : List Level}
    (honly : ∀ first ∈ levels, ∀ second ∈ levels, first = second) (level : Level) :
    nearest? levels level = levels.head? := by
  cases levels with
  | nil => rfl
  | cons first rest =>
      by_cases hmem : level ∈ first :: rest
      · rw [nearest?_of_mem hmem, honly level hmem first List.mem_cons_self, List.head?_cons]
      · exact if_neg fun hin => hmem (List.contains_iff_mem.mp hin)

end Level

namespace Placement

variable {p : Placement}

theorem levelOf?_of_contains {level : Level} {id : String} (hin : p.contains level id = true) :
    p.levelOf? id level = some level :=
  Level.nearest?_of_mem (mem_levelsOf.mpr (contains_iff.mp hin))

theorem startBody?_of_mem {body : Level} {id : String} (hin : (id, body) ∈ p.starts) :
    p.startBody? id body = some body :=
  Level.nearest?_of_mem (mem_levelsOf.mpr hin)

/-- A source that lies on the level of the look-up means the node there. -/
theorem origin?_of_contains {level : Level} {id : String} (hin : p.contains level id = true) :
    p.origin? id level = some (.node level) := by
  unfold origin?
  rw [levelOf?_of_contains hin]
  exact if_pos rfl

/-- A source that does not lie in a body, but was left out of it as its start, means the
start of that body when it is seen from there. -/
theorem origin?_of_start {body : Level} {id : String} (hstart : (id, body) ∈ p.starts)
    (hout : p.contains body id = false) : p.origin? id body = some (.start body) := by
  unfold origin?
  rw [startBody?_of_mem hstart]
  cases hlevel : p.levelOf? id body with
  | none => rfl
  | some found =>
      have hother : found ≠ body := by
        rintro rfl
        have hin := contains_iff.mpr (mem_nodes_of_levelOf? hlevel)
        exact absurd hin (by simp [hout])
      simp [hother]

/-- No id is placed twice: it lies on one level as a node, or it is the start of one body,
but not both. -/
structure PlacesOnce (p : Placement) : Prop where
  nodes : ∀ id level other, (id, level) ∈ p.nodes → (id, other) ∈ p.nodes → level = other
  starts : ∀ id body other, (id, body) ∈ p.starts → (id, other) ∈ p.starts → body = other
  apart : ∀ id level body, (id, level) ∈ p.nodes → (id, body) ∉ p.starts

/-- Where an id has one level at most, the nearest one is the same from everywhere. -/
theorem nearest?_levelsOf_eq {entries : List (String × Level)} {id : String}
    (honce : ∀ first second, (id, first) ∈ entries → (id, second) ∈ entries → first = second)
    (level other : Level) :
    Level.nearest? (levelsOf entries id) level = Level.nearest? (levelsOf entries id) other := by
  have honly : ∀ first ∈ levelsOf entries id, ∀ second ∈ levelsOf entries id, first = second :=
    fun first hfirst second hsecond =>
      honce first second (mem_levelsOf.mp hfirst) (mem_levelsOf.mp hsecond)
  rw [Level.nearest?_eq_head? honly level, Level.nearest?_eq_head? honly other]

section PlacesOnce

variable (honce : p.PlacesOnce) (id : String)
include honce

theorem PlacesOnce.levelOf?_eq (level other : Level) :
    p.levelOf? id level = p.levelOf? id other :=
  nearest?_levelsOf_eq (honce.nodes id) level other

theorem PlacesOnce.startBody?_eq (level other : Level) :
    p.startBody? id level = p.startBody? id other :=
  nearest?_levelsOf_eq (honce.starts id) level other

/-- Without repeated ids there is no choice between a node and a start. -/
theorem PlacesOnce.origin?_eq_or (level : Level) :
    p.origin? id level =
      ((p.levelOf? id level).map .node).or ((p.startBody? id level).map .start) := by
  unfold origin?
  cases hlevel : p.levelOf? id level with
  | none => cases p.startBody? id level <;> rfl
  | some found =>
      have hnone : p.startBody? id level = none :=
        (startBody?_eq_none_iff level).mpr fun body =>
          honce.apart id found body (mem_nodes_of_levelOf? hlevel)
      simp [hnone]

theorem PlacesOnce.origin?_eq (level other : Level) : p.origin? id level = p.origin? id other := by
  rw [honce.origin?_eq_or id level, honce.origin?_eq_or id other,
    honce.levelOf?_eq id level other, honce.startBody?_eq id level other]

end PlacesOnce

/-- The id that an insertion places. -/
def Step.id : Step → String
  | .node id _ => id
  | .start id _ => id

/-- A run of insertions places no id twice exactly if it only repeats insertions. -/
theorem placesOnce_ofSteps_iff {steps : List Step} :
    (ofSteps steps).PlacesOnce ↔ ∀ s ∈ steps, ∀ t ∈ steps, s.id = t.id → s = t := by
  constructor
  · intro honce s hs t ht hid
    cases s with
    | node id level =>
        cases t with
        | node other place =>
            obtain rfl : id = other := hid
            rw [honce.nodes id level place (mem_nodes_ofSteps_iff.mpr hs)
              (mem_nodes_ofSteps_iff.mpr ht)]
        | start other owner =>
            obtain rfl : id = other := hid
            exact absurd (mem_starts_ofSteps_iff.mpr ⟨owner, ht, rfl⟩)
              (honce.apart id level _ (mem_nodes_ofSteps_iff.mpr hs))
    | start id owner =>
        cases t with
        | node other place =>
            obtain rfl : id = other := hid
            exact absurd (mem_starts_ofSteps_iff.mpr ⟨owner, hs, rfl⟩)
              (honce.apart id place _ (mem_nodes_ofSteps_iff.mpr ht))
        | start other owner' =>
            obtain rfl : id = other := hid
            have hbody := honce.starts id (.body owner) (.body owner')
              (mem_starts_ofSteps_iff.mpr ⟨owner, hs, rfl⟩)
              (mem_starts_ofSteps_iff.mpr ⟨owner', ht, rfl⟩)
            rw [Level.body.inj hbody]
  · intro hsteps
    refine ⟨fun id level other hlevel hother => ?_, fun id body other hbody hother => ?_,
      fun id level body hlevel hbody => ?_⟩
    · exact (Step.node.inj (hsteps _ (mem_nodes_ofSteps_iff.mp hlevel) _
        (mem_nodes_ofSteps_iff.mp hother) rfl)).2
    · obtain ⟨owner, howner, rfl⟩ := mem_starts_ofSteps_iff.mp hbody
      obtain ⟨owner', howner', rfl⟩ := mem_starts_ofSteps_iff.mp hother
      rw [(Step.start.inj (hsteps _ howner _ howner' rfl)).2]
    · obtain ⟨owner, howner, -⟩ := mem_starts_ofSteps_iff.mp hbody
      cases hsteps _ (mem_nodes_ofSteps_iff.mp hlevel) _ howner rfl

end Placement

namespace Link

variable {p : Platform} {placement : Placement} {level : Level} {l : Link}

/-- A link leaves on the handle that its platform reserves for the start of a body. -/
def LeavesOnStart (p : Platform) (l : Link) : Prop :=
  ∃ handle, p.iterationStartHandle? = some handle ∧ l.sourceHandle = some handle

theorem isLoopStart_iff : l.isLoopStart p placement = true ↔
    l.LeavesOnStart p ∧ placement.contains (.body l.source) l.target = true := by
  unfold isLoopStart LeavesOnStart
  cases p.iterationStartHandle? <;> simp

/-- A link between two nodes of the level on which it is listed is internal to it. -/
theorem classify_of_own (hhandle : ¬ l.LeavesOnStart p)
    (hsource : placement.contains level l.source = true)
    (htarget : placement.contains level l.target = true) :
    l.classify p level placement = .internal level := by
  have hplain : ¬ l.isLoopStart p placement = true := fun h => hhandle (isLoopStart_iff.mp h).1
  rw [classify, if_neg hplain, Placement.origin?_of_contains hsource]
  exact if_pos htarget

/-- A link listed in a body enters it if it leaves from the start of that body, unless it
enters the body of its source on the reserved handle. -/
theorem classify_of_start {owner : String} (hplain : ¬ l.isLoopStart p placement = true)
    (hstart : (l.source, .body owner) ∈ placement.starts)
    (hout : placement.contains (.body owner) l.source = false)
    (htarget : placement.contains (.body owner) l.target = true) :
    l.classify p (.body owner) placement = .entry owner := by
  rw [classify, if_neg hplain, Placement.origin?_of_start hstart hout]
  exact if_pos htarget

/-- Without repeated ids the class of a link does not depend on where it is listed. -/
theorem classify_of_placesOnce (honce : placement.PlacesOnce) (p : Platform) (l : Link)
    (level other : Level) : l.classify p level placement = l.classify p other placement := by
  unfold classify
  rw [honce.origin?_eq l.source level other, honce.levelOf?_eq l.target level other]

end Link

namespace EdgePartition

open Placement

/-- What a run of insertions settles for the links that are listed on a level, whatever it
places on the other levels. -/
structure KeepsOwnLinks (p : Platform) (steps : List Step) : Prop where
  internal : ∀ (level : Level) (l : Link), ¬ l.LeavesOnStart p →
    (l.classify p level (ofSteps steps) = .internal level ↔
      .node l.source level ∈ steps ∧ .node l.target level ∈ steps)
  entry : ∀ (owner : String) (l : Link),
    (l.LeavesOnStart p → .node l.target (.body l.source) ∉ steps) →
    .start l.source owner ∈ steps → .node l.source (.body owner) ∉ steps →
    .node l.target (.body owner) ∈ steps →
      l.classify p (.body owner) (ofSteps steps) = .entry owner
  loopStart : ∀ (level : Level) (l : Link), l.LeavesOnStart p →
    .node l.target (.body l.source) ∈ steps →
      l.classify p level (ofSteps steps) = .entry l.source
  further : ∀ (level : Level) (l : Link) (more : List Step), ¬ l.LeavesOnStart p →
    (∀ id, .node id level ∉ more) →
      (l.classify p level (ofSteps (steps ++ more)) = .internal level ↔
        l.classify p level (ofSteps steps) = .internal level)

/-- A link is internal to the level on which it is listed exactly if both of its ends were
placed there. -/
theorem classify_eq_internal_iff {p : Platform} {l : Link} (hhandle : ¬ l.LeavesOnStart p)
    (steps : List Step) (level : Level) :
    l.classify p level (ofSteps steps) = .internal level ↔
      .node l.source level ∈ steps ∧ .node l.target level ∈ steps := by
  rw [← contains_ofSteps_iff, ← contains_ofSteps_iff]
  exact ⟨Link.of_classify_eq_internal, fun h => Link.classify_of_own hhandle h.1 h.2⟩

/-- Nodes on other levels never take the links of a level away from it. Whatever was
inserted, and in whatever order, a link between two nodes of its level is internal to
it; a link on the handle that is reserved for this enters the body of its source from
anywhere; and any other link from the start of a body to a node of the body enters that
body. Insertions on other levels change nothing about which links are internal. -/
theorem keepsOwnLinks_ofSteps (p : Platform) (steps : List Step) : KeepsOwnLinks p steps where
  internal level l hhandle := classify_eq_internal_iff hhandle steps level
  entry owner l hother hstart hout htarget := by
    have hplain : ¬ l.isLoopStart p (ofSteps steps) = true := by
      rw [Link.isLoopStart_iff, contains_ofSteps_iff]
      exact fun h => hother h.1 h.2
    exact Link.classify_of_start hplain (mem_starts_ofSteps_iff.mpr ⟨owner, hstart, rfl⟩)
      (contains_ofSteps_eq_false_iff.mpr hout) (contains_ofSteps_iff.mpr htarget)
  loopStart level l hhandle htarget :=
    if_pos (Link.isLoopStart_iff.mpr ⟨hhandle, contains_ofSteps_iff.mpr htarget⟩)
  further level l more hhandle hmore := by
    have hplaced : ∀ id, .node id level ∈ steps ++ more ↔ Step.node id level ∈ steps := by
      intro id
      rw [List.mem_append]
      exact or_iff_left (hmore id)
    rw [classify_eq_internal_iff hhandle, classify_eq_internal_iff hhandle, hplaced, hplaced]

/-- Two loops whose bodies repeat the ids of the root, all of them placed before it. -/
def repeatedSteps : List Step :=
  [.node "a" (.body "p"), .node "b" (.body "p"), .start "s" "q", .start "s" "p",
   .node "b" (.body "q"), .node "s" (.body "q"), .node "b" .root, .node "a" .root]

/-- The root keeps its link although both ends were placed in a body first, also when one
more body repeats them; and the body of `p` has a start of its own, which is not the node
in the body of `q`. -/
theorem keepsOwnLinks_repeatedSteps :
    KeepsOwnLinks .coze repeatedSteps ∧
      (⟨"e", "a", none, "b", none⟩ : Link).classify .coze .root
        (ofSteps (repeatedSteps ++ [.node "a" (.body "q"), .start "a" "q"])) = .internal .root ∧
      (⟨"f", "s", some "true", "a", none⟩ : Link).classify .coze (.body "p")
        (ofSteps repeatedSteps) = .entry "p" ∧
      (⟨"g", "q", some "loop-function-inline-output", "b", none⟩ : Link).classify .coze
        (.body "p") (ofSteps repeatedSteps) = .entry "q" := by
  have hkeeps := keepsOwnLinks_ofSteps .coze repeatedSteps
  have hplain : ¬ (⟨"e", "a", none, "b", none⟩ : Link).LeavesOnStart .coze := by
    rintro ⟨handle, -, hhandle⟩
    cases hhandle
  have htrue : ¬ (⟨"f", "s", some "true", "a", none⟩ : Link).LeavesOnStart .coze := by
    rintro ⟨handle, hreserved, ⟨⟩⟩
    exact absurd hreserved (by decide)
  refine ⟨hkeeps, ?_, ?_, ?_⟩
  · apply (hkeeps.further .root _ _ hplain (by simp)).mpr
    exact (hkeeps.internal .root _ hplain).mpr (by decide)
  · exact hkeeps.entry "p" _ (fun h => absurd h htrue) (by decide) (by decide) (by decide)
  · exact hkeeps.loopStart (.body "p") _ ⟨_, rfl, rfl⟩ (by decide)

/-- Without repeated ids, links are sorted as if all of them were listed at the root. -/
theorem ofLinks_eq_root {placement : Placement} (honce : placement.PlacesOnce) (p : Platform)
    (listed : List (Level × Link)) :
    ofLinks p placement listed =
      ofLinks p placement ((listed.map Prod.snd).map fun l => (.root, l)) := by
  induction listed with
  | nil => rfl
  | cons entry rest ih =>
      obtain ⟨level, l⟩ := entry
      rw [List.map_cons, List.map_cons, ofLinks, ofLinks, ih,
        Link.classify_of_placesOnce honce p l level .root]

/-- Where no id is placed twice, the class of a link is the same from every level, and so
links are sorted in the same way wherever they are listed. -/
theorem ofLinks_of_placesOnce (p : Platform) {placement : Placement}
    (honce : placement.PlacesOnce) :
    (∀ (l : Link) (level other : Level),
      l.classify p level placement = l.classify p other placement) ∧
    ∀ listed relisted : List (Level × Link), listed.map Prod.snd = relisted.map Prod.snd →
      ofLinks p placement listed = ofLinks p placement relisted := by
  refine ⟨Link.classify_of_placesOnce honce p, fun listed relisted hlinks => ?_⟩
  rw [ofLinks_eq_root honce p listed, ofLinks_eq_root honce p relisted, hlinks]

/-- A loop with a start, whose body holds two nodes, and a node behind the loop. -/
def singleSteps : List Step :=
  [.node "loop" .root, .start "s" "loop", .node "a" (.body "loop"), .node "b" (.body "loop"),
   .node "end" .root, .node "a" (.body "loop")]

/-- Links of the body and of the root, one between them, and one to a node that is not
there. -/
def singleLinks : List Link :=
  [⟨"1", "s", none, "a", none⟩, ⟨"2", "a", none, "b", none⟩, ⟨"3", "b", none, "end", none⟩,
   ⟨"4", "loop", none, "end", none⟩, ⟨"5", "a", none, "gone", none⟩]

theorem ofLinks_of_placesOnce_singleSteps :
    (ofSteps singleSteps).PlacesOnce ∧
      (∀ (l : Link) (level other : Level),
        l.classify .dify level (ofSteps singleSteps) =
          l.classify .dify other (ofSteps singleSteps)) ∧
      ofLinks .dify (ofSteps singleSteps) (singleLinks.map fun l => (.body "loop", l)) =
        ofLinks .dify (ofSteps singleSteps) (singleLinks.map fun l => (.root, l)) ∧
      (ofLinks .dify (ofSteps singleSteps) (singleLinks.map fun l => (.root, l))).internal.map
        (fun entry => (entry.1, entry.2.id)) = [(.body "loop", "2"), (.root, "4")] := by
  have honce : (ofSteps singleSteps).PlacesOnce := placesOnce_ofSteps_iff.mpr (by decide)
  have hsame := ofLinks_of_placesOnce .dify honce
  exact ⟨honce, hsame.1, hsame.2 _ _ (by decide), by decide⟩

end EdgePartition

end WorkflowGraph
