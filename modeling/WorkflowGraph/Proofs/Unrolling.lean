/-
# The document with its bodies in place

Lifting walks a document through the bodies of its loops, which are stored on records
and in sections, and a bound on the depth keeps it from going round in circles. Where
the bound suffices, the walk visits a finite nesting of records. Everything that lifting
yields is described here by recursion over that nesting, so that nothing after this
module mentions the bound or the place where a body is stored.
-/

import WorkflowGraph.Proofs.Decoding
import WorkflowGraph.Proofs.Nested

namespace WorkflowGraph

namespace Document

variable (g : Registry) (d : Document)

/-- The body that is lifted with a record: the located one, if the record is a loop. -/
def opened? (r : Record) : Option Blocks :=
  if g.isLoop r then d.body? r else none

/-- The nesting of a list of records: inside each loop stand the records of its located
body. -/
inductive Unrolls : List Record → Nested Record → Prop
  | nil : Unrolls [] .nil
  | leaf {r : Record} {rs : List Record} {t : Nested Record} :
      d.opened? g r = none → Unrolls rs t → Unrolls (r :: rs) (.leaf r t)
  | loop {r : Record} {rs : List Record} {body : Blocks} {inner t : Nested Record} :
      d.opened? g r = some body → Unrolls body.records inner → Unrolls rs t →
        Unrolls (r :: rs) (.loop r inner t)

variable {g : Registry} {d : Document}

theorem opened?_eq_some_iff {r : Record} {body : Blocks} :
    d.opened? g r = some body ↔ g.isLoop r = true ∧ d.body? r = some body := by
  unfold opened?
  split <;> simp_all

/-- A list of records has at most one nesting. -/
theorem Unrolls.unique {rs : List Record} {t u : Nested Record}
    (ht : d.Unrolls g rs t) (hu : d.Unrolls g rs u) : t = u := by
  induction ht generalizing u with
  | nil =>
      cases hu
      rfl
  | leaf hnone _ ih =>
      cases hu with
      | leaf _ hrest => rw [ih hrest]
      | loop hsome _ _ => cases hnone.symm.trans hsome
  | loop hsome _ _ ihInner ihRest =>
      cases hu with
      | leaf hnone _ => cases hnone.symm.trans hsome
      | loop hother hinner hrest =>
          obtain rfl := Option.some.inj (hsome.symm.trans hother)
          rw [ihInner hinner, ihRest hrest]

/-- The outermost records of a nesting are the records that were unrolled. -/
theorem Unrolls.roots_eq {rs : List Record} {t : Nested Record} (ht : d.Unrolls g rs t) :
    t.roots = rs := by
  induction ht with
  | nil => rfl
  | leaf _ _ ih => rw [Nested.roots, ih]
  | loop _ _ _ _ ih => rw [Nested.roots, ih]

end Document

namespace Report

theorem empty_append (r : Report) : empty ++ r = r := by
  show append empty r = r
  simp [append, empty]

theorem append_assoc (a b c : Report) : a ++ b ++ c = a ++ (b ++ c) := by
  show append (append a b) c = append a (append b c)
  simp only [append, List.append_assoc, Nat.add_assoc]

end Report

namespace Harvest

/-! What two harvests yield together, part by part. -/

@[simp] theorem levels_append (a b : Harvest) : (a ++ b).levels = a.levels ++ b.levels := rfl

@[simp] theorem links_append (a b : Harvest) : (a ++ b).links = a.links ++ b.links := rfl

@[simp] theorem placed_append (a b : Harvest) : (a ++ b).placed = a.placed ++ b.placed := rfl

@[simp] theorem starts_append (a b : Harvest) : (a ++ b).starts = a.starts ++ b.starts := rfl

@[simp] theorem removed_append (a b : Harvest) :
    (a ++ b).removed = a.removed ++ b.removed := rfl

@[simp] theorem usedSections_append (a b : Harvest) :
    (a ++ b).usedSections = a.usedSections ++ b.usedSections := rfl

@[simp] theorem diagnostics_append (a b : Harvest) :
    (a ++ b).report.diagnostics = a.report.diagnostics ++ b.report.diagnostics := rfl

@[simp] theorem removed_empty : empty.removed = [] := rfl

@[simp] theorem empty_append (h : Harvest) : empty ++ h = h := by
  show append empty h = h
  simp [append, empty, Report.empty_append]

theorem append_assoc (a b c : Harvest) : a ++ b ++ c = a ++ (b ++ c) := by
  show append (append a b) c = append a (append b c)
  simp only [append, List.append_assoc, Report.append_assoc]

/-- All findings of a harvest are about constructs that are not supported. -/
def OnlyUnsupported (h : Harvest) : Prop :=
  ∀ found ∈ h.report.diagnostics, found.kind = .unsupportedConstruct

theorem onlyUnsupported_empty : empty.OnlyUnsupported := by
  intro found hfound
  cases hfound

theorem OnlyUnsupported.append {a b : Harvest} (ha : a.OnlyUnsupported)
    (hb : b.OnlyUnsupported) : (a ++ b).OnlyUnsupported := by
  intro found hfound
  rcases List.mem_append.mp hfound with h | h
  · exact ha found h
  · exact hb found h

/-- A harvest that only reports: it lifts nothing and places nothing. -/
structure IsIdle (h : Harvest) : Prop where
  levels : h.levels = []
  placed : h.placed = []
  starts : h.starts = []
  usedSections : h.usedSections = []
  report : h.OnlyUnsupported

theorem isIdle_empty : empty.IsIdle :=
  ⟨rfl, rfl, rfl, rfl, onlyUnsupported_empty⟩

theorem IsIdle.append {a b : Harvest} (ha : a.IsIdle) (hb : b.IsIdle) : (a ++ b).IsIdle where
  levels := by rw [levels_append, ha.levels, hb.levels, List.append_nil]
  placed := by rw [placed_append, ha.placed, hb.placed, List.append_nil]
  starts := by rw [starts_append, ha.starts, hb.starts, List.append_nil]
  usedSections := by rw [usedSections_append, ha.usedSections, hb.usedSections, List.append_nil]
  report := ha.report.append hb.report

theorem isIdle_ofLinks (level : Level) (links : List Link) : (ofLinks level links).IsIdle :=
  ⟨rfl, rfl, rfl, rfl, onlyUnsupported_empty⟩

theorem isIdle_ofDropped (owner : String) (r : Record) (reason : String) :
    (ofDropped owner r reason).IsIdle where
  levels := rfl
  placed := rfl
  starts := rfl
  usedSections := rfl
  report := by
    intro found hfound
    obtain rfl := List.mem_singleton.mp hfound
    rfl

mutual

/-- A body that is not lifted yields links and findings only. -/
theorem isIdle_ofUnlifted (p : Platform) (owner : String) :
    (b : Blocks) → (ofUnlifted p owner b).IsIdle
  | ⟨records, links⟩ => by
      rw [ofUnlifted]
      exact (isIdle_ofLinks _ links).append (isIdle_ofUnliftedRecords p owner records)

theorem isIdle_ofUnliftedRecords (p : Platform) (owner : String) :
    (rs : List Record) → (ofUnliftedRecords p owner rs).IsIdle
  | [] => by
      rw [ofUnliftedRecords]
      exact isIdle_empty
  | ⟨id, tag, title, params, inputs, outputs, blocks, presentation⟩ :: rs => by
      have hrest := isIdle_ofUnliftedRecords p owner rs
      rw [ofUnliftedRecords]
      split
      · exact IsIdle.append ⟨rfl, rfl, rfl, rfl, onlyUnsupported_empty⟩ hrest
      · exact ((isIdle_ofDropped owner _ _).append
          (isIdle_ofUnliftedInner p id blocks)).append hrest

theorem isIdle_ofUnliftedInner (p : Platform) (owner : String) :
    (b : Option Blocks) → (ofUnliftedInner p owner b).IsIdle
  | none => by
      rw [ofUnliftedInner]
      exact isIdle_empty
  | some b => by
      rw [ofUnliftedInner]
      exact isIdle_ofUnlifted p owner b

end

end Harvest

namespace Lift

variable (g : Registry) (d : Document) (resolver : Resolver)

/-- A record of a level becomes a node, in a context with some ids removed. -/
def Becomes (level : Level) (r : Record) (n : Node) : Prop :=
  g.platform.isPseudoTag r.tag = false ∧
    ∃ removed, (decodeRecord g resolver level removed r).1 = some n

/-- What decoding one record yields, whatever was removed before. -/
structure DecodeSpec (level : Level) (r : Record) (out : Option Node × Harvest) : Prop where
  face : out.1.map Node.face = g.survivor? level r
  fresh : ∀ n, out.1 = some n → n.IsFresh
  placed : out.2.placed = out.1.toList.map fun n => (n.id, level)
  starts : out.2.starts = []
  levels : out.2.levels = []
  links : out.2.links = []
  usedSections : out.2.usedSections = []
  report : out.2.OnlyUnsupported

variable {g d resolver}

theorem isFresh_placeholder (p : Platform) (r : Record) : (placeholder p r).IsFresh :=
  ⟨rfl, by simp [placeholder], nofun⟩

theorem decodeRecord_of_ok {level : Level} {removed : List String} {r : Record} {n : Node}
    (hn : g.decode (context g resolver removed) r = .ok n) :
    decodeRecord g resolver level removed r = (some n, .ofNode level n) := by
  cases level <;> simp [decodeRecord, Registry.decodeOrPlaceholder, hn]

theorem decodeRecord_root_of_error {removed : List String} {r : Record} {e : DecodeError}
    (he : g.decode (context g resolver removed) r = .error e) :
    decodeRecord g resolver .root removed r =
      (some (placeholder g.platform r), .ofPlaceholder r (placeholder g.platform r) e) := by
  simp only [decodeRecord, Registry.decodeOrPlaceholder, he]
  rfl

theorem decodeRecord_body_of_error {owner : String} {removed : List String} {r : Record}
    {e : DecodeError} (he : g.decode (context g resolver removed) r = .error e) :
    decodeRecord g resolver (.body owner) removed r = (none, .ofDropped owner r e.message) := by
  simp [decodeRecord, he]

theorem decodeRecord_spec (hg : g.UsesBuiltIns) (resolver : Resolver) (level : Level)
    (removed : List String) {r : Record} (hpseudo : g.platform.isPseudoTag r.tag = false) :
    DecodeSpec g level r (decodeRecord g resolver level removed r) := by
  cases hface : g.face? r with
  | some face =>
      obtain ⟨_, _, hdecodes⟩ := Registry.decode_of_face?_eq_some hg hface
      obtain ⟨n, hn, hnface, hfresh⟩ := hdecodes (context g resolver removed)
      rw [decodeRecord_of_ok hn]
      refine ⟨?_, ?_, rfl, rfl, rfl, rfl, rfl, ?_⟩
      · simp [Registry.survivor?, hpseudo, hface, hnface]
      · rintro _ ⟨⟩
        exact hfresh
      · exact Harvest.onlyUnsupported_empty
  | none =>
      obtain ⟨e, hfails⟩ := Registry.decode_of_face?_eq_none hg hface
      cases level with
      | root =>
          rw [decodeRecord_root_of_error (hfails _)]
          refine ⟨?_, ?_, rfl, rfl, rfl, rfl, rfl, ?_⟩
          · simp [Registry.survivor?, hpseudo, hface]
          · rintro _ ⟨⟩
            exact isFresh_placeholder _ r
          · intro found hfound
            obtain rfl := List.mem_singleton.mp hfound
            rfl
      | body owner =>
          rw [decodeRecord_body_of_error (hfails _)]
          refine ⟨?_, ?_, rfl, rfl, rfl, rfl, rfl, ?_⟩
          · simp [Registry.survivor?, hpseudo, hface]
          · intro n hn
            cases hn
          · exact (Harvest.isIdle_ofDropped owner r e.message).report

/-- A record that becomes a node survives with the face of that node. -/
theorem Becomes.survivor?_eq (hg : g.UsesBuiltIns) {level : Level} {r : Record} {n : Node}
    (hn : Becomes g resolver level r n) : g.survivor? level r = some n.face := by
  obtain ⟨hpseudo, removed, hout⟩ := hn
  rw [← (decodeRecord_spec hg resolver level removed hpseudo).face, hout]
  rfl

theorem Becomes.isFresh (hg : g.UsesBuiltIns) {level : Level} {r : Record} {n : Node}
    (hn : Becomes g resolver level r n) : n.IsFresh := by
  obtain ⟨hpseudo, removed, hout⟩ := hn
  exact (decodeRecord_spec hg resolver level removed hpseudo).fresh n hout

/-- A node keeps the id of its record. -/
theorem Becomes.id_eq (hg : g.UsesBuiltIns) {level : Level} {r : Record} {n : Node}
    (hn : Becomes g resolver level r n) : n.id = r.id :=
  (Registry.survivor?_eq_some hg (hn.survivor?_eq hg)).1

/-- Loops become iteration nodes, and nothing else does. -/
theorem Becomes.kind_eq_iteration_iff (hg : g.UsesBuiltIns) {level : Level} {r : Record}
    {n : Node} (hn : Becomes g resolver level r n) :
    n.kind = .iteration ↔ g.isLoop r = true :=
  (Registry.survivor?_eq_some hg (hn.survivor?_eq hg)).2

/-- The slot that a record gets while the records of its level are lifted. -/
inductive SlotOf (g : Registry) (resolver : Resolver) (level : Level) (r : Record) :
    Option Slot → Prop
  | skipped : g.survivor? level r = none → SlotOf g resolver level r none
  | ready {n : Node} : Becomes g resolver level r n → SlotOf g resolver level r (some (.ready n))
  | deferred : g.platform.isPseudoTag r.tag = false →
      SlotOf g resolver level r (some (.deferred r))

/-- Where the node of a slot is placed; a deferred one is placed when it is decoded. -/
def slotPlaces (level : Level) : Slot → List (String × Level)
  | .ready n => [(n.id, level)]
  | .deferred _ => []

/-- The body whose start a record marks, if it is a loop-start node of a body. -/
def markedStarts (g : Registry) (level : Level) (r : Record) : List (String × String) :=
  if g.platform.isPseudoTag r.tag then (Harvest.ofStart level r.id).starts else []

/-- The links of the body on a record that is decoded but cannot hold its body. -/
def droppedLinks (g : Registry) (r : Record) : List (Level × Link) :=
  if g.platform.isPseudoTag r.tag ∨ g.kind? r.tag = some .finish ∨ g.isLoop r then []
  else (Harvest.ofUnliftedInner g.platform r.id r.blocks).links

/-- What lifting a record without a lifted body yields. -/
structure LeafSpec (g : Registry) (resolver : Resolver) (level : Level) (r : Record)
    (slot : Option Slot) (h : Harvest) : Prop where
  slotOf : SlotOf g resolver level r slot
  placed : h.placed = slot.toList.flatMap (slotPlaces level)
  starts : h.starts = markedStarts g level r
  levels : h.levels = []
  links : h.links = droppedLinks g r
  usedSections : h.usedSections = []
  report : h.OnlyUnsupported

theorem usedSection_of_body?_eq_none {r : Record} (hbody : d.body? r = none) :
    usedSection d r = [] := by
  cases hblocks : r.blocks with
  | some b => simp [Document.body?, hblocks] at hbody
  | none =>
      have hsection : Table.get? r.id d.sections = none := by
        simpa [Document.body?, hblocks] using hbody
      simp [usedSection, hblocks, Table.hasKey_eq_isSome_get?, hsection]

theorem survivor?_eq_none_of_isPseudoTag {level : Level} {r : Record}
    (hpseudo : g.platform.isPseudoTag r.tag = true) : g.survivor? level r = none := by
  simp [Registry.survivor?, hpseudo]

/-- Decoding tells loops from other records by the kind of the node. -/
theorem DecodeSpec.kind_iff (hg : g.UsesBuiltIns) {level : Level} {r : Record}
    {out : Option Node × Harvest} (hspec : DecodeSpec g level r out) :
    out.1.map Node.kind = some .iteration ↔ g.isLoop r = true := by
  have hface := hspec.face
  constructor
  · intro hkind
    obtain ⟨n, hn, hiteration⟩ := Option.map_eq_some_iff.mp hkind
    rw [hn] at hface
    exact (Registry.survivor?_eq_some hg hface.symm).2.mp hiteration
  · intro hloop
    obtain ⟨face, hsome, hiteration⟩ := Registry.survivor?_of_isLoop hloop level
    rw [hsome] at hface
    obtain ⟨n, hn, rfl⟩ := Option.map_eq_some_iff.mp hface
    rw [hn]
    exact congrArg some hiteration

/-- The body of a record that is not lifted with it yields its dropped links only. -/
theorem bodyHarvest_closed (hg : g.UsesBuiltIns) {level : Level} {r : Record}
    {out : Option Node × Harvest} (hspec : DecodeSpec g level r out)
    (hpseudo : g.platform.isPseudoTag r.tag = false) (hfinish : g.kind? r.tag ≠ some .finish)
    (hclosed : d.opened? g r = none) :
    ∃ h, h.IsIdle ∧ h.links = droppedLinks g r ∧
      ∀ inner removed, bodyHarvest g d inner removed r out.1 = some h := by
  cases hloop : g.isLoop r with
  | true =>
      have hbody : d.body? r = none := by simpa [Document.opened?, hloop] using hclosed
      refine ⟨{ Harvest.empty with usedSections := usedSection d r }, ?_, ?_,
        fun inner removed => ?_⟩
      · exact ⟨rfl, rfl, rfl, usedSection_of_body?_eq_none hbody, Harvest.onlyUnsupported_empty⟩
      · simp [droppedLinks, hloop, Harvest.empty]
      · simp [bodyHarvest, (hspec.kind_iff hg).mpr hloop, hbody]
  | false =>
      have hkind : ¬ out.1.map Node.kind = some .iteration := by
        rw [hspec.kind_iff hg, hloop]
        nofun
      refine ⟨_, Harvest.isIdle_ofUnliftedInner g.platform r.id r.blocks, ?_,
        fun inner removed => ?_⟩
      · simp [droppedLinks, hpseudo, hfinish, hloop]
      · rw [bodyHarvest, if_neg hkind]

/-- A record whose body is not lifted is lifted without the bound on the depth. -/
theorem record_leaf (hg : g.UsesBuiltIns) (resolver : Resolver) (level : Level)
    (removed : List String) {r : Record} (hclosed : d.opened? g r = none) :
    ∃ slot h, LeafSpec g resolver level r slot h ∧
      ∀ inner, record g d resolver inner level removed r = some (slot.toList, h) := by
  cases hpseudo : g.platform.isPseudoTag r.tag with
  | true =>
      refine ⟨none, .ofStart level r.id, ?_, fun inner => by simp [record, hpseudo]⟩
      exact ⟨.skipped (survivor?_eq_none_of_isPseudoTag hpseudo), rfl,
        by simp [markedStarts, hpseudo], rfl,
        by simp [droppedLinks, hpseudo, Harvest.ofStart, Harvest.empty], rfl,
        Harvest.onlyUnsupported_empty⟩
  | false =>
      by_cases hfinish : g.kind? r.tag = some .finish
      · refine ⟨some (.deferred r), .empty, ?_, fun inner => by simp [record, hpseudo, hfinish]⟩
        exact ⟨.deferred hpseudo, rfl, by simp [markedStarts, hpseudo, Harvest.empty], rfl,
          by simp [droppedLinks, hfinish, Harvest.empty], rfl,
          Harvest.onlyUnsupported_empty⟩
      · have hspec := decodeRecord_spec hg resolver level removed hpseudo
        obtain ⟨hbody, hidle, hlinks, hinner⟩ :=
          bodyHarvest_closed (d := d) hg hspec hpseudo hfinish hclosed
        generalize hout : decodeRecord g resolver level removed r = out at hspec hinner
        refine ⟨out.1.map .ready, out.2 ++ hbody, ?_, fun inner => ?_⟩
        · refine ⟨?_, ?_, ?_, ?_, ?_, ?_, hspec.report.append hidle.report⟩
          · cases hn : out.1 with
            | none =>
                refine .skipped ?_
                rw [← hspec.face, hn]
                rfl
            | some n => exact .ready ⟨hpseudo, removed, by rw [hout, hn]⟩
          · rw [Harvest.placed_append, hspec.placed, hidle.placed, List.append_nil]
            cases out.1 <;> rfl
          · rw [Harvest.starts_append, hspec.starts, hidle.starts, markedStarts, hpseudo]
            rfl
          · rw [Harvest.levels_append, hspec.levels, hidle.levels, List.append_nil]
          · rw [Harvest.links_append, hspec.links, hlinks, List.nil_append]
          · rw [Harvest.usedSections_append, hspec.usedSections, hidle.usedSections,
              List.append_nil]
        · have hslots : (out.1.map Slot.ready).toList = out.1.toList.map Slot.ready := by
            cases out.1 <;> rfl
          simp [record, hpseudo, hfinish, hout, hinner, hslots]

/-- A record whose body is lifted yields an iteration node and what its body yields. -/
theorem record_loop (hg : g.UsesBuiltIns) (resolver : Resolver) (level : Level)
    (removed : List String) {r : Record} {body : Blocks} (hopen : d.opened? g r = some body) :
    ∃ n h, Becomes g resolver level r n ∧ DecodeSpec g level r (some n, h) ∧
      ∀ inner, record g d resolver inner level removed r =
        (inner (.body r.id) (removed ++ h.removed) body).map fun hbody =>
          ([.ready n], h ++ ({ Harvest.empty with usedSections := usedSection d r } ++ hbody)) := by
  obtain ⟨hloop, hbody⟩ := Document.opened?_eq_some_iff.mp hopen
  have hpseudo := (Registry.isLoop_iff.mp hloop).1
  have hfinish : ¬ g.kind? r.tag = some .finish := by
    rw [Registry.kind?_of_isLoop hg hloop]
    nofun
  have hspec := decodeRecord_spec hg resolver level removed hpseudo
  have hkind := (hspec.kind_iff hg).mpr hloop
  generalize hout : decodeRecord g resolver level removed r = out at hspec hkind
  obtain ⟨n?, h⟩ := out
  obtain ⟨n, rfl, hiteration⟩ := Option.map_eq_some_iff.mp hkind
  refine ⟨n, h, ⟨hpseudo, removed, by rw [hout]⟩, hspec, fun inner => ?_⟩
  simp [record, hpseudo, hfinish, hout, bodyHarvest, hiteration, hbody, Option.map_map,
    Function.comp_def]

/-- The slots of a nesting of records, before the deferred ones are decoded. -/
inductive Slots (g : Registry) (resolver : Resolver) :
    Level → Nested Record → Nested Slot → Prop
  | nil {level : Level} : Slots g resolver level .nil .nil
  | skip {level : Level} {r : Record} {t : Nested Record} {s : Nested Slot} :
      SlotOf g resolver level r none → Slots g resolver level t s →
        Slots g resolver level (.leaf r t) s
  | leaf {level : Level} {r : Record} {slot : Slot} {t : Nested Record} {s : Nested Slot} :
      SlotOf g resolver level r (some slot) → Slots g resolver level t s →
        Slots g resolver level (.leaf r t) (.leaf slot s)
  | loop {level : Level} {r : Record} {n : Node} {inner t : Nested Record}
      {innerSlots s : Nested Slot} :
      g.isLoop r = true → Becomes g resolver level r n →
        Slots g resolver (.body r.id) inner innerSlots → Slots g resolver level t s →
          Slots g resolver level (.loop r inner t) (.loop (.ready n) innerSlots s)

/-- The id of the node that a slot holds or will hold. -/
def slotId : Slot → String
  | .ready n => n.id
  | .deferred r => r.id

/-- Where the nodes of a nesting of slots are placed while it is lifted. -/
def places : Level → Nested Slot → List (String × Level)
  | _, .nil => []
  | level, .leaf slot rest => slotPlaces level slot ++ places level rest
  | level, .loop slot inner rest =>
    slotPlaces level slot ++ places (.body (slotId slot)) inner ++ places level rest

/-- The links that a nesting of records yields: those of the bodies inside and those of
the bodies that are dropped on the way. -/
def listedLinks (g : Registry) (d : Document) : Nested Record → List (Level × Link)
  | .nil => []
  | .leaf r rest => droppedLinks g r ++ listedLinks g d rest
  | .loop r inner rest =>
    (d.body? r).toList.flatMap (fun body => body.links.map fun l => (.body r.id, l))
      ++ listedLinks g d inner ++ listedLinks g d rest

/-- The starts of bodies that the loop-start nodes of a nesting mark. -/
def listedStarts (g : Registry) : Level → Nested Record → List (String × String)
  | _, .nil => []
  | level, .leaf r rest => markedStarts g level r ++ listedStarts g level rest
  | level, .loop r inner rest =>
    listedStarts g (.body r.id) inner ++ listedStarts g level rest

/-- The sections that are lifted with the loops of a nesting. -/
def openedSections (d : Document) : Nested Record → List String
  | .nil => []
  | .leaf _ rest => openedSections d rest
  | .loop r inner rest => usedSection d r ++ openedSections d inner ++ openedSections d rest

/-- A harvest of the records of a level, all that is inside them included. -/
structure Reaps (g : Registry) (d : Document) (level : Level) (t : Nested Record)
    (s : Nested Slot) (h : Harvest) : Prop where
  levels : h.levels = (s.bodies slotId).map fun e => (e.1, e.2.roots)
  placed : h.placed = places level s
  starts : h.starts = listedStarts g level t
  links : h.links = listedLinks g d t
  usedSections : h.usedSections = openedSections d t
  report : h.OnlyUnsupported

/-- The nesting of records, and of slots, that an inner level was lifted through. -/
def Lifts (g : Registry) (d : Document) (resolver : Resolver) (level : Level) (body : Blocks)
    (h : Harvest) : Prop :=
  ∃ t s inside, d.Unrolls g body.records t ∧ Slots g resolver level t s ∧
    Reaps g d level t s inside ∧
      h = .ofLinks level body.links ++ inside ++ .ofLevel level s.roots

theorem Reaps.leaf {level : Level} {r : Record} {slot : Slot} {t : Nested Record}
    {s : Nested Slot} {h rest : Harvest} (hleaf : LeafSpec g resolver level r (some slot) h)
    (hrest : Reaps g d level t s rest) :
    Reaps g d level (.leaf r t) (.leaf slot s) (h ++ rest) where
  levels := by simp [hleaf.levels, hrest.levels, Nested.bodies]
  placed := by simp [hleaf.placed, hrest.placed, places]
  starts := by simp [hleaf.starts, hrest.starts, listedStarts]
  links := by simp [hleaf.links, hrest.links, listedLinks]
  usedSections := by simp [hleaf.usedSections, hrest.usedSections, openedSections]
  report := hleaf.report.append hrest.report

theorem Reaps.skip {level : Level} {r : Record} {t : Nested Record} {s : Nested Slot}
    {h rest : Harvest} (hleaf : LeafSpec g resolver level r none h)
    (hrest : Reaps g d level t s rest) : Reaps g d level (.leaf r t) s (h ++ rest) where
  levels := by simp [hleaf.levels, hrest.levels]
  placed := by simp [hleaf.placed, hrest.placed]
  starts := by simp [hleaf.starts, hrest.starts, listedStarts]
  links := by simp [hleaf.links, hrest.links, listedLinks]
  usedSections := by simp [hleaf.usedSections, hrest.usedSections, openedSections]
  report := hleaf.report.append hrest.report

theorem Reaps.loop {level : Level} {r : Record} {n : Node} {body : Blocks}
    {inner t : Nested Record} {innerSlots s : Nested Slot} {h inside rest : Harvest}
    (hid : n.id = r.id) (hopen : d.opened? g r = some body)
    (hspec : DecodeSpec g level r (some n, h))
    (hinner : Reaps g d (.body r.id) inner innerSlots inside)
    (hrest : Reaps g d level t s rest) :
    Reaps g d level (.loop r inner t) (.loop (.ready n) innerSlots s)
      (h ++ ({ Harvest.empty with usedSections := usedSection d r } ++
        (.ofLinks (.body r.id) body.links ++ inside ++
          .ofLevel (.body r.id) innerSlots.roots)) ++ rest) where
  levels := by
    have hlevels : h.levels = [] := hspec.levels
    simp [hlevels, hinner.levels, hrest.levels, Nested.bodies, slotId, hid,
      Harvest.ofLinks, Harvest.ofLevel, Harvest.empty]
  placed := by
    have hplaced : h.placed = [(n.id, level)] := hspec.placed
    simp [hplaced, hinner.placed, hrest.placed, places, slotPlaces, slotId, hid,
      Harvest.ofLinks, Harvest.ofLevel, Harvest.empty]
  starts := by
    have hstarts : h.starts = [] := hspec.starts
    simp [hstarts, hinner.starts, hrest.starts, listedStarts,
      Harvest.ofLinks, Harvest.ofLevel, Harvest.empty]
  links := by
    have hlinks : h.links = [] := hspec.links
    have hbody := (Document.opened?_eq_some_iff.mp hopen).2
    simp [hlinks, hinner.links, hrest.links, listedLinks, hbody,
      Harvest.ofLinks, Harvest.ofLevel, Harvest.empty]
  usedSections := by
    have hused : h.usedSections = [] := hspec.usedSections
    simp [hused, hinner.usedSections, hrest.usedSections, openedSections,
      Harvest.ofLinks, Harvest.ofLevel, Harvest.empty]
  report := by
    have hinside : (Harvest.ofLinks (.body r.id) body.links ++ inside ++
        .ofLevel (.body r.id) innerSlots.roots).OnlyUnsupported :=
      (Harvest.onlyUnsupported_empty.append hinner.report).append Harvest.onlyUnsupported_empty
    exact (hspec.report.append (Harvest.onlyUnsupported_empty.append hinside)).append hrest.report

/-- A list of records is lifted record by record, each with what the records before it
removed. -/
theorem records_cons_eq_some {inner : Level → List String → Blocks → Option Harvest}
    {level : Level} {removed : List String} {r : Record} {rs : List Record} {slots : List Slot}
    {h : Harvest} (hrecords : records g d resolver inner level removed (r :: rs) =
      some (slots, h)) :
    ∃ here hhere more rest, record g d resolver inner level removed r = some (here, hhere) ∧
      records g d resolver inner level (removed ++ hhere.removed) rs = some (more, rest) ∧
        slots = here ++ more ∧ h = hhere ++ rest := by
  obtain ⟨⟨here, hhere⟩, hrecord, htail⟩ := Option.bind_eq_some_iff.mp hrecords
  obtain ⟨⟨more, rest⟩, hmore, hresult⟩ := Option.bind_eq_some_iff.mp htail
  obtain ⟨rfl, rfl⟩ := Prod.mk.inj (Option.some.inj hresult)
  exact ⟨here, hhere, more, rest, hrecord, hmore, rfl, rfl⟩

/-- A level is lifted with its links before what its records yield, and its slots after. -/
theorem within_succ_eq_some {n : Nat} {level : Level} {removed : List String} {body : Blocks}
    {h : Harvest} (hwithin : within g d resolver (n + 1) level removed body = some h) :
    ∃ slots inside,
      records g d resolver (within g d resolver n) level removed body.records =
        some (slots, inside) ∧
      h = .ofLinks level body.links ++ inside ++ .ofLevel level slots := by
  obtain ⟨⟨slots, inside⟩, hrecords, hresult⟩ := Option.bind_eq_some_iff.mp hwithin
  exact ⟨slots, inside, hrecords, (Option.some.inj hresult).symm⟩

/-- Lifting a list of records unrolls them, if that is what lifting a body does. -/
theorem records_lifts (hg : g.UsesBuiltIns)
    {inner : Level → List String → Blocks → Option Harvest}
    (hinner : ∀ level removed body h, inner level removed body = some h →
      Lifts g d resolver level body h)
    (level : Level) (rs : List Record) :
    ∀ removed slots h, records g d resolver inner level removed rs = some (slots, h) →
      ∃ t s, d.Unrolls g rs t ∧ Slots g resolver level t s ∧ Reaps g d level t s h ∧
        slots = s.roots := by
  induction rs with
  | nil =>
      intro removed slots h hrecords
      obtain ⟨rfl, rfl⟩ : [] = slots ∧ Harvest.empty = h := by simpa [records] using hrecords
      exact ⟨.nil, .nil, .nil, .nil,
        ⟨rfl, rfl, rfl, rfl, rfl, Harvest.onlyUnsupported_empty⟩, rfl⟩
  | cons r rs ih =>
      intro removed slots h hrecords
      obtain ⟨here, hhere, more, rest, hrecord, hmore, rfl, rfl⟩ := records_cons_eq_some hrecords
      obtain ⟨t, s, hunrolls, hslots, hreaps, rfl⟩ := ih _ _ _ hmore
      cases hopen : d.opened? g r with
      | none =>
          obtain ⟨slot, hleaf, hspec, hall⟩ :=
            record_leaf hg resolver level removed hopen
          rw [hall inner] at hrecord
          obtain ⟨rfl, rfl⟩ : slot.toList = here ∧ hleaf = hhere := by simpa using hrecord
          cases slot with
          | none =>
              exact ⟨.leaf r t, s, .leaf hopen hunrolls, .skip hspec.slotOf hslots,
                hreaps.skip hspec, rfl⟩
          | some slot =>
              exact ⟨.leaf r t, .leaf slot s, .leaf hopen hunrolls, .leaf hspec.slotOf hslots,
                hreaps.leaf hspec, rfl⟩
      | some body =>
          obtain ⟨n, hdecoded, hbecomes, hspec, hall⟩ :=
            record_loop hg resolver level removed hopen
          rw [hall inner] at hrecord
          obtain ⟨hbody, hlift, hpair⟩ := Option.map_eq_some_iff.mp hrecord
          obtain ⟨rfl, rfl⟩ := Prod.mk.inj hpair
          obtain ⟨u, innerSlots, inside, hinside, hinnerSlots, hinnerReaps, rfl⟩ :=
            hinner _ _ _ _ hlift
          have hloop := (Document.opened?_eq_some_iff.mp hopen).1
          refine ⟨.loop r u t, .loop (.ready n) innerSlots s, .loop hopen hinside hunrolls,
            .loop hloop hbecomes hinnerSlots hslots, ?_, rfl⟩
          exact Reaps.loop (hbecomes.id_eq hg) hopen hspec hinnerReaps hreaps

/-- Where the bound on the depth suffices, lifting a level unrolls it. -/
theorem within_lifts (hg : g.UsesBuiltIns) (n : Nat) :
    ∀ level removed body h, within g d resolver n level removed body = some h →
      Lifts g d resolver level body h := by
  induction n with
  | zero =>
      intro level removed body h hwithin
      cases hwithin
  | succ n ih =>
      intro level removed body h hwithin
      obtain ⟨slots, inside, hrecords, rfl⟩ := within_succ_eq_some hwithin
      obtain ⟨t, s, hunrolls, hslots, hreaps, rfl⟩ :=
        records_lifts hg ih level body.records _ _ _ hrecords
      exact ⟨t, s, inside, hunrolls, hslots, hreaps, rfl⟩

end Lift

end WorkflowGraph
