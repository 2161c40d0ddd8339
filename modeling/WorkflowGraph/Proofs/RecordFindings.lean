/-
# Why a record is reported

A finding about a record names a record of the document, and gives one of two reasons:
the error with which the record cannot be decoded, or that the loop around it is not in
the graph. All records of the document count here, also those of bodies that are not
lifted and those of sections that no loop opens.
-/

import WorkflowGraph.Proofs.AssembledGraph
import WorkflowGraph.Proofs.DepthBound
import WorkflowGraph.Proofs.Findings

namespace WorkflowGraph

/-- The record stands in a list, or in a body stored on a record of the list, at any
depth. -/
inductive Record.Within (r : Record) : List Record → Prop
  | here {rs : List Record} : r ∈ rs → r.Within rs
  | inside {rs : List Record} {owner : Record} {body : Blocks} :
      owner ∈ rs → owner.blocks = some body → r.Within body.records → r.Within rs

/-- The record stands in the root of a document or in one of its sections, at any depth. -/
inductive Document.Holds (d : Document) (r : Record) : Prop
  | root : r.Within d.records → d.Holds r
  | nested {entry : String × Blocks} :
      entry ∈ d.sections.entries → r.Within entry.2.records → d.Holds r

theorem Record.Within.trans {r owner : Record} {rs : List Record} {body : Blocks}
    (howner : owner.Within rs) (hblocks : owner.blocks = some body)
    (hr : r ∈ body.records) : r.Within rs := by
  induction howner with
  | here hmem => exact .inside hmem hblocks (.here hr)
  | inside hmem hbody _ ih => exact .inside hmem hbody ih

namespace Document

variable {d : Document}

theorem holds_of_blocks {r : Record} (hr : d.Holds r) {body : Blocks}
    (hblocks : r.blocks = some body) : ∀ other ∈ body.records, d.Holds other := by
  intro other hother
  cases hr with
  | root hwithin => exact .root (hwithin.trans hblocks hother)
  | nested hentry hwithin => exact .nested hentry (hwithin.trans hblocks hother)

/-- The records of a located body are records of the document. -/
theorem holds_of_body? {r : Record} (hr : d.Holds r) {body : Blocks}
    (hbody : d.body? r = some body) : ∀ other ∈ body.records, d.Holds other := by
  cases hblocks : r.blocks with
  | some own =>
      obtain rfl : own = body := by simpa [body?, hblocks] using hbody
      exact holds_of_blocks hr hblocks
  | none =>
      have hsection : Table.get? r.id d.sections = some body := by
        simpa [body?, hblocks] using hbody
      exact fun other hother => .nested (Table.mem_of_get?_eq_some hsection) (.here hother)

end Document

/-- The finding is about a record that was replaced or left out. -/
def Diagnostic.isAboutRecord : Diagnostic → Bool
  | .unsupportedNode .. | .droppedBlock .. => true
  | _ => false

theorem Diagnostic.kind_of_isAboutRecord {found : Diagnostic}
    (habout : found.isAboutRecord = true) : found.kind = .unsupportedConstruct := by
  cases found <;> first | rfl | cases habout

theorem Assembly.isAboutRecord_edgeFindings (e : Edge) (source : Node) :
    ∀ found ∈ edgeFindings e source, found.isAboutRecord = false := by
  intro found hfound
  unfold edgeFindings at hfound
  split at hfound
  · obtain rfl := List.mem_singleton.mp hfound
    rfl
  · obtain rfl := List.mem_singleton.mp hfound
    rfl
  · cases hfound

/-- What findings about records say: a record of the document cannot be decoded, for the
reason given, or it stands in a body without a loop. -/
inductive Explained (g : Registry) (d : Document) : Diagnostic → Prop
  | replaced {r : Record} {ctx : DecodeContext} {e : DecodeError} :
      d.Holds r → g.decode ctx r = .error e →
        Explained g d (.unsupportedNode r.id r.tag e.message)
  | leftOut {owner : String} {r : Record} {ctx : DecodeContext} {e : DecodeError} :
      d.Holds r → g.decode ctx r = .error e →
        Explained g d (.droppedBlock owner r.id r.tag e.message)
  | orphaned {owner : String} {r : Record} :
      d.Holds r → Explained g d (.droppedBlock owner r.id r.tag (Harvest.orphanReason owner))

/-- The record that a slot still waits for is a record of the document. -/
def Slot.Held (d : Document) : Slot → Prop
  | .ready _ => True
  | .deferred r => d.Holds r

/-- A harvest of records of the document: its findings are explained, and the end nodes
that are still to be decoded are records of the document. -/
structure Harvest.IsExplained (g : Registry) (d : Document) (h : Harvest) : Prop where
  findings : ∀ found ∈ h.report.diagnostics, Explained g d found
  slots : ∀ e ∈ h.levels, ∀ slot ∈ e.2, slot.Held d

namespace Harvest

variable {g : Registry} {d : Document}

theorem isExplained_of_silent {h : Harvest} (hfindings : h.report.diagnostics = [])
    (hlevels : h.levels = []) : h.IsExplained g d where
  findings := by rw [hfindings]; nofun
  slots := by rw [hlevels]; nofun

theorem isExplained_empty : IsExplained g d .empty :=
  isExplained_of_silent rfl rfl

theorem IsExplained.append {a b : Harvest} (ha : a.IsExplained g d) (hb : b.IsExplained g d) :
    (a ++ b).IsExplained g d where
  findings := List.forall_mem_append.mpr ⟨ha.findings, hb.findings⟩
  slots := List.forall_mem_append.mpr ⟨ha.slots, hb.slots⟩

theorem isExplained_ofDropped {owner : String} {r : Record} {reason : String}
    (hreason : Explained g d (.droppedBlock owner r.id r.tag reason)) :
    (ofDropped owner r reason).IsExplained g d where
  findings := List.forall_mem_singleton.mpr hreason
  slots := nofun

mutual

theorem isExplained_ofUnlifted (p : Platform) (owner : String) :
    (b : Blocks) → (∀ r ∈ b.records, d.Holds r) → (ofUnlifted p owner b).IsExplained g d
  | ⟨records, links⟩, hheld => by
      rw [ofUnlifted]
      exact (isExplained_of_silent rfl rfl).append
        (isExplained_ofUnliftedRecords p owner records hheld)

theorem isExplained_ofUnliftedRecords (p : Platform) (owner : String) :
    (rs : List Record) → (∀ r ∈ rs, d.Holds r) →
      (ofUnliftedRecords p owner rs).IsExplained g d
  | [], _ => by
      rw [ofUnliftedRecords]
      exact isExplained_empty
  | ⟨id, tag, title, params, inputs, outputs, blocks, presentation⟩ :: rs, hheld => by
      obtain ⟨hr, hrs⟩ := List.forall_mem_cons.mp hheld
      have hrest := isExplained_ofUnliftedRecords p owner rs hrs
      rw [ofUnliftedRecords]
      split
      · exact (isExplained_of_silent rfl rfl).append hrest
      · have hinner := isExplained_ofUnliftedInner p id blocks
          fun body hbody => Document.holds_of_blocks hr hbody
        exact ((isExplained_ofDropped (.orphaned hr)).append hinner).append hrest

theorem isExplained_ofUnliftedInner (p : Platform) (owner : String) :
    (b : Option Blocks) → (∀ body, b = some body → ∀ r ∈ body.records, d.Holds r) →
      (ofUnliftedInner p owner b).IsExplained g d
  | none, _ => by
      rw [ofUnliftedInner]
      exact isExplained_empty
  | some b, hheld => by
      rw [ofUnliftedInner]
      exact isExplained_ofUnlifted p owner b (hheld b rfl)

end

end Harvest

namespace Lift

variable {g : Registry} {d : Document} {resolver : Resolver}

/-- Decoding a record reports the error of its decoder, if anything. -/
theorem isExplained_decodeRecord (level : Level) (removed : List String) {r : Record}
    (hr : d.Holds r) : (decodeRecord g resolver level removed r).2.IsExplained g d := by
  cases hdecode : g.decode (context g resolver removed) r with
  | ok n =>
      rw [decodeRecord_of_ok hdecode]
      exact Harvest.isExplained_of_silent rfl rfl
  | error e =>
      cases level with
      | root =>
          rw [decodeRecord_root_of_error hdecode]
          exact ⟨List.forall_mem_singleton.mpr (.replaced hr hdecode), nofun⟩
      | body owner =>
          rw [decodeRecord_body_of_error hdecode]
          exact Harvest.isExplained_ofDropped (.leftOut hr hdecode)

/-- What an inner level yields, if it is lifted from records of the document. -/
def InnerExplained (g : Registry) (d : Document)
    (inner : Level → List String → Blocks → Option Harvest) : Prop :=
  ∀ level removed body h, (∀ r ∈ body.records, d.Holds r) →
    inner level removed body = some h → h.IsExplained g d

variable {inner : Level → List String → Blocks → Option Harvest}

theorem isExplained_bodyHarvest (hinner : InnerExplained g d inner) {removed : List String}
    {r : Record} {n : Option Node} {h : Harvest} (hr : d.Holds r)
    (hbody : bodyHarvest g d inner removed r n = some h) : h.IsExplained g d := by
  unfold bodyHarvest at hbody
  split at hbody
  next =>
      split at hbody
      next body hlocated =>
          obtain ⟨inside, hinside, rfl⟩ := Option.map_eq_some_iff.mp hbody
          exact (Harvest.isExplained_of_silent rfl rfl).append
            (hinner _ _ _ _ (Document.holds_of_body? hr hlocated) hinside)
      next =>
          obtain rfl := Option.some.inj hbody
          exact Harvest.isExplained_of_silent rfl rfl
  next =>
      obtain rfl := Option.some.inj hbody
      exact Harvest.isExplained_ofUnliftedInner _ _ _ fun body => Document.holds_of_blocks hr

/-- One record of the document yields explained findings, and a slot that waits for the
record itself if it waits at all. -/
theorem isExplained_record (hinner : InnerExplained g d inner) {level : Level}
    {removed : List String} {r : Record} {slots : List Slot} {h : Harvest} (hr : d.Holds r)
    (hrecord : record g d resolver inner level removed r = some (slots, h)) :
    (∀ slot ∈ slots, slot.Held d) ∧ h.IsExplained g d := by
  unfold record at hrecord
  split at hrecord
  next =>
      obtain ⟨rfl, rfl⟩ := Prod.mk.inj (Option.some.inj hrecord)
      exact ⟨nofun, Harvest.isExplained_of_silent rfl rfl⟩
  next =>
      split at hrecord
      next =>
          obtain ⟨rfl, rfl⟩ := Prod.mk.inj (Option.some.inj hrecord)
          exact ⟨List.forall_mem_singleton.mpr hr, Harvest.isExplained_empty⟩
      next =>
          obtain ⟨body, hbody, hpair⟩ := Option.map_eq_some_iff.mp hrecord
          obtain ⟨rfl, rfl⟩ := Prod.mk.inj hpair
          refine ⟨fun slot hslot => ?_, (isExplained_decodeRecord level removed hr).append
            (isExplained_bodyHarvest hinner hr hbody)⟩
          obtain ⟨n, _, rfl⟩ := Option.map_eq_some_iff.mp (Option.mem_toList.mp hslot)
          trivial

theorem isExplained_records (hinner : InnerExplained g d inner) {level : Level}
    (rs : List Record) (hrs : ∀ r ∈ rs, d.Holds r) :
    ∀ removed slots h, records g d resolver inner level removed rs = some (slots, h) →
      (∀ slot ∈ slots, slot.Held d) ∧ h.IsExplained g d := by
  induction rs with
  | nil =>
      intro removed slots h hrecords
      obtain ⟨rfl, rfl⟩ := Prod.mk.inj (Option.some.inj hrecords)
      exact ⟨nofun, Harvest.isExplained_empty⟩
  | cons r rs ih =>
      intro removed slots h hrecords
      obtain ⟨hr, hlater⟩ := List.forall_mem_cons.mp hrs
      obtain ⟨here, hhere, more, rest, hrecord, hmore, rfl, rfl⟩ := records_cons_eq_some hrecords
      obtain ⟨hslots, hexplained⟩ := isExplained_record hinner hr hrecord
      obtain ⟨hmoreSlots, hrest⟩ := ih hlater _ _ _ hmore
      exact ⟨List.forall_mem_append.mpr ⟨hslots, hmoreSlots⟩, hexplained.append hrest⟩

/-- Levels are lifted from records of the document only. -/
theorem innerExplained_within (n : Nat) : InnerExplained g d (within g d resolver n) := by
  induction n with
  | zero => nofun
  | succ n ih =>
      intro level removed body h hheld hwithin
      obtain ⟨slots, inside, hrecords, rfl⟩ := within_succ_eq_some hwithin
      obtain ⟨hslots, hinside⟩ := isExplained_records ih _ hheld _ _ _ hrecords
      exact ((Harvest.isExplained_of_silent rfl rfl).append hinside).append
        ⟨nofun, List.forall_mem_singleton.mpr hslots⟩

theorem isExplained_orphans (used : List String) : (orphans g d used).IsExplained g d := by
  unfold orphans
  have hsections : ∀ entry ∈ d.sections.entries.filter fun entry => !used.contains entry.1,
      ∀ r ∈ entry.2.records, d.Holds r :=
    fun entry hentry r hr => .nested (List.mem_of_mem_filter hentry) (.here hr)
  revert hsections
  induction d.sections.entries.filter fun entry => !used.contains entry.1 with
  | nil => exact fun _ => Harvest.isExplained_empty
  | cons entry rest ih =>
      intro hsections
      obtain ⟨hentry, hrest⟩ := List.forall_mem_cons.mp hsections
      exact (Harvest.isExplained_ofUnlifted _ _ _ hentry).append (ih hrest)

theorem isExplained_finishSlots (level : Level) (slots : List Slot)
    (hslots : ∀ slot ∈ slots, slot.Held d) :
    ∀ removed, (finishSlots g resolver level removed slots).2.IsExplained g d := by
  induction slots with
  | nil => exact fun _ => Harvest.isExplained_empty
  | cons slot slots ih =>
      intro removed
      obtain ⟨hslot, hrest⟩ := List.forall_mem_cons.mp hslots
      cases slot with
      | ready n => exact ih hrest removed
      | deferred r => exact (isExplained_decodeRecord level removed hslot).append (ih hrest _)

theorem isExplained_finishLevels (levels : List (Level × List Slot))
    (hlevels : ∀ e ∈ levels, ∀ slot ∈ e.2, slot.Held d) :
    ∀ removed, (finishLevels g resolver removed levels).2.IsExplained g d := by
  induction levels with
  | nil => exact fun _ => Harvest.isExplained_empty
  | cons e levels ih =>
      intro removed
      obtain ⟨hslots, hrest⟩ := List.forall_mem_cons.mp hlevels
      exact (isExplained_finishSlots e.1 e.2 hslots removed).append (ih hrest _)

end Lift

variable {g : Registry} {d : Document}

/-- Lifting a document reports explained findings only. -/
theorem Lifted.ofDocument?_explained {l : Lifted} (hlifted : ofDocument? g d = some l) :
    l.harvest.IsExplained g d := by
  obtain ⟨resolver, root, -, hroot, _, rfl, rfl⟩ := ofDocument?_eq_some hlifted
  have hinside := Lift.innerExplained_within _ _ _ _ _ (fun r hr => .root (.here hr)) hroot
  have hall := hinside.append (Lift.isExplained_orphans root.usedSections)
  exact hall.append (Lift.isExplained_finishLevels _ hall.slots _)

namespace Conversion

/-- Everything that a conversion reports about records is explained. -/
theorem ofDocument_explained {c : Conversion} (hc : ofDocument g d = .ok c) {found : Diagnostic}
    (hfound : found ∈ c.report.diagnostics) (habout : found.isAboutRecord = true) :
    Explained g d found := by
  obtain ⟨_, l, hlifted, _, rfl⟩ := ofDocument_eq_ok_iff.mp hc
  have hkind := Diagnostic.kind_of_isAboutRecord habout
  rw [diagnostics_assemble] at hfound
  simp only [List.mem_append] at hfound
  rcases hfound with hlift | (hedge | hreference) | hassembly
  · exact (Lifted.ofDocument?_explained hlifted).findings found hlift
  · cases (kind_droppedEdges _ found hedge).symm.trans hkind
  · cases (kind_danglingReferences _ found hreference).symm.trans hkind
  · have hnot := Assembly.forall_ofLevel Assembly.isAboutRecord_edgeFindings _ _ _ _ found hassembly
    cases hnot.symm.trans habout

end Conversion

end WorkflowGraph
