/-
# The nodes of a lifted document

End nodes wait in slots until every other record is decoded. Decoding them fills the
nesting of slots in, level by level, and the result is a nesting of nodes over the same
records. What a whole document yields is read off here once: its levels are the levels
of that nesting, its placement holds exactly the nodes of the nesting, and its links are
those of the bodies that were lifted or dropped.
-/

import WorkflowGraph.Conversion
import WorkflowGraph.Proofs.EdgePartition
import WorkflowGraph.Proofs.Unrolling

namespace WorkflowGraph

namespace Lift

/-- A nesting of records becomes a nesting of nodes: each record that survives becomes a
node, and the body of a loop becomes the list inside its node. -/
inductive Decodes (g : Registry) (resolver : Resolver) :
    Level → Nested Record → Nested Node → Prop
  | nil {level : Level} : Decodes g resolver level .nil .nil
  | skip {level : Level} {r : Record} {t : Nested Record} {f : Nested Node} :
      g.survivor? level r = none → Decodes g resolver level t f →
        Decodes g resolver level (.leaf r t) f
  | leaf {level : Level} {r : Record} {n : Node} {t : Nested Record} {f : Nested Node} :
      Becomes g resolver level r n → Decodes g resolver level t f →
        Decodes g resolver level (.leaf r t) (.leaf n f)
  | loop {level : Level} {r : Record} {n : Node} {inner t : Nested Record}
      {body f : Nested Node} :
      g.isLoop r = true → Becomes g resolver level r n →
        Decodes g resolver (.body r.id) inner body → Decodes g resolver level t f →
          Decodes g resolver level (.loop r inner t) (.loop n body f)

variable {g : Registry} {d : Document} {resolver : Resolver}

/-- A harvest of end nodes: it has no links, marks no starts and reports unsupported
constructs only. -/
structure IsLate (h : Harvest) : Prop where
  links : h.links = []
  starts : h.starts = []
  report : h.OnlyUnsupported

theorem isLate_empty : IsLate .empty :=
  ⟨rfl, rfl, Harvest.onlyUnsupported_empty⟩

theorem IsLate.append {a b : Harvest} (ha : IsLate a) (hb : IsLate b) : IsLate (a ++ b) where
  links := by rw [Harvest.links_append, ha.links, hb.links, List.append_nil]
  starts := by rw [Harvest.starts_append, ha.starts, hb.starts, List.append_nil]
  report := ha.report.append hb.report

/-- The node that the slot of a record ends up with, if any. -/
def Fills (g : Registry) (resolver : Resolver) (level : Level) (r : Record) : Option Node → Prop
  | some n => Becomes g resolver level r n
  | none => g.survivor? level r = none

/-- Decoding the first slot of a list yields its node before those of the rest. -/
theorem finishSlots_cons (hg : g.UsesBuiltIns) {level : Level} {r : Record} {slot : Slot}
    (hslot : SlotOf g resolver level r (some slot)) (removed : List String) :
    ∃ n h, Fills g resolver level r n ∧ IsLate h ∧
      (n.toList.map fun n => (n.id, level)) = slotPlaces level slot ++ h.placed ∧
      ∀ slots, finishSlots g resolver level removed (slot :: slots) =
        (n.toList ++ (finishSlots g resolver level (removed ++ h.removed) slots).1,
          h ++ (finishSlots g resolver level (removed ++ h.removed) slots).2) := by
  cases hslot with
  | @ready n hbecomes =>
      refine ⟨some n, .empty, hbecomes, isLate_empty, rfl, fun slots => ?_⟩
      simp [finishSlots]
  | deferred hpseudo =>
      have hspec := decodeRecord_spec hg resolver level removed hpseudo
      generalize hout : decodeRecord g resolver level removed r = out at hspec
      refine ⟨out.1, out.2, ?_, ⟨hspec.links, hspec.starts, hspec.report⟩, hspec.placed.symm,
        fun slots => ?_⟩
      · cases hn : out.1 with
        | some n => exact ⟨hpseudo, removed, by rw [hout, hn]⟩
        | none =>
            have hface := hspec.face
            rw [hn] at hface
            exact hface.symm
      · simp [finishSlots, hout]

/-- Decoding the end nodes of two runs of levels is one after the other. -/
theorem finishLevels_append (a b : List (Level × List Slot)) :
    ∀ removed, finishLevels g resolver removed (a ++ b) =
      ((finishLevels g resolver removed a).1 ++
          (finishLevels g resolver
            (removed ++ (finishLevels g resolver removed a).2.removed) b).1,
        (finishLevels g resolver removed a).2 ++
          (finishLevels g resolver
            (removed ++ (finishLevels g resolver removed a).2.removed) b).2) := by
  induction a with
  | nil =>
      intro removed
      simp [finishLevels]
  | cons e a ih =>
      intro removed
      obtain ⟨level, slots⟩ := e
      simp [finishLevels, ih, Harvest.append_assoc, List.append_assoc]

/-- What decoding the end nodes of a nesting of slots comes to, when its inner levels are
decoded after `inside` and its outermost list after `here` was removed. -/
structure FinishSpec (g : Registry) (resolver : Resolver) (level : Level) (t : Nested Record)
    (s : Nested Slot) (inside here : List String) (f : Nested Node) : Prop where
  decodes : Decodes g resolver level t f
  bodies : (finishLevels g resolver inside ((s.bodies slotId).map fun e => (e.1, e.2.roots))).1 =
    (f.bodies Node.id).map fun e => (e.1, e.2.roots)
  roots : (finishSlots g resolver level here s.roots).1 = f.roots
  late : IsLate
      (finishLevels g resolver inside ((s.bodies slotId).map fun e => (e.1, e.2.roots))).2 ∧
    IsLate (finishSlots g resolver level here s.roots).2
  placed : ∀ place, place ∈ places level (f.map .ready) ↔
    place ∈ places level s ∨
      place ∈ (finishLevels g resolver inside
        ((s.bodies slotId).map fun e => (e.1, e.2.roots))).2.placed ∨
      place ∈ (finishSlots g resolver level here s.roots).2.placed

theorem FinishSpec.leaf {level : Level} {r : Record} {slot : Slot} {t : Nested Record}
    {s : Nested Slot} {f : Nested Node} {inside here : List String} {n : Option Node}
    {h : Harvest} (hfills : Fills g resolver level r n) (hlate : IsLate h)
    (hplaced : (n.toList.map fun n => (n.id, level)) = slotPlaces level slot ++ h.placed)
    (hslots : ∀ slots, finishSlots g resolver level here (slot :: slots) =
      (n.toList ++ (finishSlots g resolver level (here ++ h.removed) slots).1,
        h ++ (finishSlots g resolver level (here ++ h.removed) slots).2))
    (hrest : FinishSpec g resolver level t s inside (here ++ h.removed) f) :
    ∃ f', FinishSpec g resolver level (.leaf r t) (.leaf slot s) inside here f' := by
  cases n with
  | none =>
      have hnowhere : slotPlaces level slot = [] ∧ h.placed = [] := by simpa using hplaced
      refine ⟨f, .skip hfills hrest.decodes, hrest.bodies, ?_, ⟨hrest.late.1, ?_⟩, fun place => ?_⟩
      · rw [Nested.roots, hslots]
        exact hrest.roots
      · rw [Nested.roots, hslots]
        exact hlate.append hrest.late.2
      · simp only [Nested.roots, Nested.bodies, hslots, places, hrest.placed place, hnowhere,
          Harvest.placed_append, List.nil_append]
  | some n =>
      have hhere : [(n.id, level)] = slotPlaces level slot ++ h.placed := hplaced
      refine ⟨.leaf n f, .leaf hfills hrest.decodes, hrest.bodies, ?_, ⟨hrest.late.1, ?_⟩,
        fun place => ?_⟩
      · rw [Nested.roots, hslots, Nested.roots, ← hrest.roots]
        rfl
      · rw [Nested.roots, hslots]
        exact hlate.append hrest.late.2
      · have hmem : place = (n.id, level) ↔ place ∈ slotPlaces level slot ∨ place ∈ h.placed := by
          rw [← List.mem_append, ← hhere, List.mem_singleton]
        simp only [Nested.roots, Nested.bodies, hslots, places, slotPlaces, Nested.map,
          List.mem_append, List.mem_singleton, hrest.placed place, hmem, Harvest.placed_append]
        grind

theorem FinishSpec.loop {level : Level} {r : Record} {n : Node} {inner t : Nested Record}
    {innerSlots s : Nested Slot} {body f : Nested Node} {inside here : List String}
    {a b : Harvest} (hid : n.id = r.id) (hloop : g.isLoop r = true)
    (hbecomes : Becomes g resolver level r n)
    (ha : (finishLevels g resolver inside
      ((innerSlots.bodies slotId).map fun e => (e.1, e.2.roots))).2 = a)
    (hb : (finishSlots g resolver (.body r.id) (inside ++ a.removed) innerSlots.roots).2 = b)
    (hinner : FinishSpec g resolver (.body r.id) inner innerSlots inside
      (inside ++ a.removed) body)
    (hrest : FinishSpec g resolver level t s (inside ++ a.removed ++ b.removed) here f) :
    FinishSpec g resolver level (.loop r inner t) (.loop (.ready n) innerSlots s) inside here
      (.loop n body f) := by
  have hlevels : finishLevels g resolver inside
      (((Nested.loop (.ready n) innerSlots s).bodies slotId).map fun e => (e.1, e.2.roots)) =
      ((body.bodies Node.id).map (fun e => (e.1, e.2.roots)) ++
          (.body n.id, body.roots) :: (f.bodies Node.id).map fun e => (e.1, e.2.roots),
        a ++ (b ++ (finishLevels g resolver (inside ++ a.removed ++ b.removed)
          ((s.bodies slotId).map fun e => (e.1, e.2.roots))).2)) := by
    rw [Nested.bodies, List.map_append, List.map_cons, finishLevels_append]
    simp only [slotId, hid, finishLevels, ha, hb, hinner.bodies, hinner.roots, hrest.bodies]
  have hslots : finishSlots g resolver level here (Nested.loop (.ready n) innerSlots s).roots =
      (n :: f.roots, (finishSlots g resolver level here s.roots).2) := by
    simp only [Nested.roots, finishSlots, hrest.roots]
  have hlateA : IsLate a := ha ▸ hinner.late.1
  have hlateB : IsLate b := hb ▸ hinner.late.2
  refine ⟨.loop hloop hbecomes hinner.decodes hrest.decodes, ?_, ?_, ?_, fun place => ?_⟩
  · rw [hlevels, Nested.bodies, List.map_append, List.map_cons]
  · rw [hslots, Nested.roots]
  · rw [hlevels, hslots]
    exact ⟨hlateA.append (hlateB.append hrest.late.1), hrest.late.2⟩
  · have hinside := hinner.placed place
    rw [ha, hb, ← hid] at hinside
    rw [hlevels, hslots]
    simp only [places, Nested.map, slotId, List.mem_append, Harvest.placed_append, hinside,
      hrest.placed place]
    grind

/-- The end nodes of a nesting of slots can be decoded after anything was removed, and
what comes of it is a nesting of nodes over the same records. -/
theorem Slots.finish (hg : g.UsesBuiltIns) {level : Level} {t : Nested Record}
    {s : Nested Slot} (hs : Slots g resolver level t s) :
    ∀ inside here, ∃ f, FinishSpec g resolver level t s inside here f := by
  induction hs with
  | nil =>
      intro inside here
      exact ⟨.nil, .nil, rfl, rfl, ⟨isLate_empty, isLate_empty⟩,
        fun place => by simp [places, Nested.map, Nested.bodies, Nested.roots, finishLevels,
          finishSlots, Harvest.empty]⟩
  | skip hslot _ ih =>
      intro inside here
      obtain ⟨f, hf⟩ := ih inside here
      cases hslot with
      | skipped hnone => exact ⟨f, { hf with decodes := .skip hnone hf.decodes }⟩
  | leaf hslot _ ih =>
      intro inside here
      obtain ⟨n, h, hfills, hlate, hplaced, hslots⟩ := finishSlots_cons hg hslot here
      obtain ⟨f, hf⟩ := ih inside (here ++ h.removed)
      exact FinishSpec.leaf hfills hlate hplaced hslots hf
  | loop hloop hbecomes _ _ ihInner ihRest =>
      intro inside here
      obtain ⟨body, hbody⟩ := ihInner inside _
      obtain ⟨f, hf⟩ := ihRest _ here
      exact ⟨_, FinishSpec.loop (hbecomes.id_eq hg) hloop hbecomes rfl rfl hbody hf⟩

/-- What the sections that were not lifted yield is links and findings only. -/
theorem isIdle_orphans (used : List String) : (orphans g d used).IsIdle := by
  unfold orphans
  induction d.sections.entries.filter fun entry => !used.contains entry.1 with
  | nil => exact Harvest.isIdle_empty
  | cons entry rest ih => exact (Harvest.isIdle_ofUnlifted _ _ _).append ih

/-- The nodes of a nesting are placed on the level of their list. -/
theorem mem_places {level : Level} {f : Nested Node} {id : String} {place : Level} :
    (id, place) ∈ places level (f.map .ready) ↔
      ∃ e ∈ f.levels Node.id level, e.1 = place ∧ id ∈ e.2.roots.map Node.id := by
  induction f generalizing level with
  | nil => simp [Nested.map, places, Nested.levels, Nested.bodies, Nested.roots]
  | leaf n rest ih =>
      have hrest := @ih level
      simp only [Nested.levels, List.mem_append, List.mem_singleton, or_and_right, exists_or,
        exists_eq_left] at hrest
      simp only [Nested.map, places, slotPlaces, Nested.levels, Nested.bodies, Nested.roots,
        List.mem_append, or_and_right, exists_or, exists_eq_left, hrest, List.map_cons,
        List.mem_cons, Prod.mk.injEq]
      grind
  | loop n inner rest ihInner ihRest =>
      have hinner := @ihInner (.body n.id)
      have hrest := @ihRest level
      simp only [Nested.levels, List.mem_append, List.mem_singleton, or_and_right, exists_or,
        exists_eq_left] at hinner hrest
      simp only [Nested.map, places, slotPlaces, slotId, Nested.levels, Nested.bodies,
        Nested.roots, List.mem_append, or_and_right, exists_or, exists_eq_left, hinner, hrest,
        List.map_cons, List.mem_cons, Prod.mk.injEq]
      grind

end Lift

namespace Lifted

variable {g : Registry} {d : Document}

/-- What a lifted document holds: the levels of a nesting of nodes, each node placed on
its level, the links of all bodies, lifted or not, and the starts of the bodies that are
lifted. -/
structure Mirrors (g : Registry) (d : Document) (t : Nested Record) (f : Nested Node)
    (l : Lifted) : Prop where
  levels : l.levels = (f.levels Node.id .root).map fun e => (e.1, e.2.roots)
  links : l.harvest.links = d.links.map (fun link => (.root, link)) ++ Lift.listedLinks g d t ++
    (Lift.orphans g d (Lift.openedSections d t)).links
  placed : ∀ place, place ∈ l.harvest.placed ↔ place ∈ Lift.places .root (f.map .ready)
  starts : l.harvest.starts = Lift.listedStarts g .root t
  report : l.harvest.OnlyUnsupported

/-- A document is lifted with the resolver of its survey, and its end nodes last. -/
theorem ofDocument?_eq_some {l : Lifted} (hlifted : ofDocument? g d = some l) :
    ∃ resolver root, Survey.resolver? g d = some resolver ∧ Lift.root? g d resolver = some root ∧
      ∃ all, root ++ Lift.orphans g d root.usedSections = all ∧
        l = ⟨(Lift.finishLevels g resolver all.removed all.levels).1,
          all ++ (Lift.finishLevels g resolver all.removed all.levels).2⟩ := by
  obtain ⟨resolver, hresolver, hlift⟩ := Option.bind_eq_some_iff.mp hlifted
  obtain ⟨root, hroot, hresult⟩ := Option.bind_eq_some_iff.mp hlift
  exact ⟨resolver, root, hresolver, hroot, _, rfl, (Option.some.inj hresult).symm⟩

/-- A document that can be lifted is lifted along the nesting of its records, with the
resolver of its survey. -/
theorem ofDocument?_decodes (hg : g.UsesBuiltIns) {l : Lifted}
    (hlifted : ofDocument? g d = some l) :
    ∃ resolver t f, Survey.resolver? g d = some resolver ∧ d.Unrolls g d.records t ∧
      Lift.Decodes g resolver .root t f ∧ l.Mirrors g d t f := by
  obtain ⟨resolver, root, hresolver, hroot, all, hall, hresult⟩ := ofDocument?_eq_some hlifted
  obtain ⟨t, s, inside, hunrolls, hslots, hreaps, rfl⟩ :=
    Lift.within_lifts hg _ _ _ _ _ hroot
  have hused : (Harvest.ofLinks .root d.links ++ inside ++ .ofLevel .root s.roots).usedSections =
      Lift.openedSections d t := by
    simp [hreaps.usedSections, Harvest.ofLinks, Harvest.ofLevel, Harvest.empty]
  rw [hused] at hall
  have hidle := Lift.isIdle_orphans (g := g) (d := d) (Lift.openedSections d t)
  have hlevels : all.levels = (s.bodies Lift.slotId).map (fun e => (e.1, e.2.roots)) ++
      [(.root, s.roots)] := by
    simp [← hall, hreaps.levels, hidle.levels, Harvest.ofLinks, Harvest.ofLevel, Harvest.empty]
  have hplaced : all.placed = Lift.places .root s := by
    simp [← hall, hreaps.placed, hidle.placed, Harvest.ofLinks, Harvest.ofLevel, Harvest.empty]
  have hstarts : all.starts = Lift.listedStarts g .root t := by
    simp [← hall, hreaps.starts, hidle.starts, Harvest.ofLinks, Harvest.ofLevel, Harvest.empty]
  have hreport : all.OnlyUnsupported := by
    rw [← hall]
    exact ((Harvest.onlyUnsupported_empty.append hreaps.report).append
      Harvest.onlyUnsupported_empty).append hidle.report
  have hlinks : all.links = d.links.map (fun link => (.root, link)) ++
      Lift.listedLinks g d t ++ (Lift.orphans g d (Lift.openedSections d t)).links := by
    simp [← hall, hreaps.links, Harvest.ofLinks, Harvest.ofLevel, Harvest.empty]
  -- The end nodes of the bodies are decoded before those of the root.
  obtain ⟨f, hf⟩ := hslots.finish hg all.removed (all.removed ++
    (Lift.finishLevels g resolver all.removed
      ((s.bodies Lift.slotId).map fun e => (e.1, e.2.roots))).2.removed)
  rw [hlevels, Lift.finishLevels_append] at hresult
  subst hresult
  refine ⟨resolver, t, f, hresolver, hunrolls, hf.decodes, ?_, ?_, fun place => ?_, ?_, ?_⟩
  · simp [Lift.finishLevels, hf.bodies, hf.roots, Nested.levels]
  · simp [Lift.finishLevels, hlinks, hf.late.1.links, hf.late.2.links, Harvest.empty]
  · simp [Lift.finishLevels, hplaced, hf.placed place, Harvest.empty]
  · simp [Lift.finishLevels, hstarts, hf.late.1.starts, hf.late.2.starts, Harvest.empty]
  · exact hreport.append (hf.late.1.report.append
      (hf.late.2.report.append Harvest.onlyUnsupported_empty))

theorem ofDocument?_mirrors (hg : g.UsesBuiltIns) {l : Lifted}
    (hlifted : ofDocument? g d = some l) :
    ∃ resolver t f, d.Unrolls g d.records t ∧ Lift.Decodes g resolver .root t f ∧
      l.Mirrors g d t f := by
  obtain ⟨resolver, t, f, -, hlifts⟩ := ofDocument?_decodes hg hlifted
  exact ⟨resolver, t, f, hlifts⟩

end Lifted

end WorkflowGraph
