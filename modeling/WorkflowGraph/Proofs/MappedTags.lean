/-
# Mapped tags

A tag that is mapped to a decoder of the library is a second name for the tag of that decoder,
as far as records go: their graph is that of the records with the tag of the library. But a
platform reads most settings of a node by its tag and before any mapping, so that a node with
the second name arrives without them. The graph of an export in which some nodes have it is
that of the document from which the settings of these nodes are left out, and the graph of the
export before only if they have none.
-/

import WorkflowGraph.Proofs.AdapterParams
import WorkflowGraph.Proofs.CarriedPointers
import WorkflowGraph.Proofs.ExportedNodes
import WorkflowGraph.Proofs.ParsedRecords
import WorkflowGraph.Proofs.RemovedDecoder
import WorkflowGraph.Proofs.Retagging

namespace WorkflowGraph

/-! ## Mapped tags of records -/

/-- The tag that a custom tag stands for; every other one stands for itself. -/
def unalias (custom tag : String) (other : String) : String :=
  if other = custom then tag else other

section

variable {custom tag : String} {kind : NodeKind}

theorem unalias_self : unalias custom tag custom = tag :=
  if_pos rfl

theorem unalias_of_ne {other : String} (hother : other ≠ custom) :
    unalias custom tag other = other :=
  if_neg hother

/-- What is the same for both tags does not tell a tag from the one that it stands for. -/
theorem apply_unalias {α : Type} {f : String → α} (hsame : f tag = f custom) (other : String) :
    f (unalias custom tag other) = f other := by
  by_cases hother : other = custom
  · rw [hother, unalias_self, hsame]
  · rw [unalias_of_ne hother]

namespace Registry

variable {g : Registry}

/-- With a custom tag mapped to the decoder of a tag, a registry follows the one without the
mapping. -/
theorem follows_register (hg : g.UsesBuiltIns) (hkind : g.kind? tag = some kind)
    (hcustom : g.platform.isPseudoTag custom = false) (htag : g.platform.isPseudoTag tag = false) :
    g.Follows (unalias custom tag) (g.register custom (.builtIn kind)) where
  platform := rfl
  isPseudoTag := apply_unalias (htag.trans hcustom.symm)
  decoder other := by
    rw [register, Table.get?_insert]
    by_cases hother : other = custom
    · obtain ⟨decoder, hdecoder, rfl⟩ := Option.map_eq_some_iff.mp hkind
      rw [hother, unalias_self, if_pos rfl, ← hg tag decoder hdecoder, hdecoder]
    · rw [unalias_of_ne hother, if_neg (Ne.symm hother)]

/-- A record of the mapped tag is decoded if its parameters can be read. -/
theorem keeps_register {r : Record} (hreadable : r.tag = custom → Params.Readable kind r.params) :
    r.Keeps (unalias custom tag) (g.register custom (.builtIn kind)) := by
  by_cases htag : r.tag = custom
  · refine Or.inl fun ctx => ?_
    obtain ⟨n, hn⟩ := Decoder.exists_decode_builtIn (hreadable htag) ctx
    refine ⟨n, ?_⟩
    simp only [decode, decoder, register, Table.get?_insert, htag]
    exact hn
  · exact Or.inr (unalias_of_ne htag)

end Registry

namespace Conversion

variable {g : Registry} {d : Document}

/-- The records of a mapped tag are converted like those of the tag that it stands for. -/
theorem ofDocument_register (hg : g.UsesBuiltIns) (hkind : g.kind? tag = some kind)
    (hcustom : g.platform.isPseudoTag custom = false) (htag : g.platform.isPseudoTag tag = false)
    (hblank : Text.isBlankText tag = Text.isBlankText custom)
    (hreadable : ∀ r, d.Holds r → r.tag = custom → Params.Readable kind r.params) :
    (ofDocument (g.register custom (.builtIn kind)) d).map Conversion.graph =
      (ofDocument g (d.retag (unalias custom tag))).map Conversion.graph := by
  have hfollows := Registry.follows_register hg hkind hcustom htag
  have hmapped := Registry.usesBuiltIns_register hg custom kind
  exact (ofDocument_retag hfollows hmapped (apply_unalias hblank) fun r hr =>
    Registry.keeps_register (hreadable r hr)).symm

end Conversion

/-! ## Tables whose values correspond -/

namespace Fields

variable {β γ : Type} {V : β → γ → Prop} {t : Fields β} {t' : Fields γ}

/-- Two lists have the same names, and their values correspond. -/
def Rel (V : β → γ → Prop) (t : Fields β) (t' : Fields γ) : Prop :=
  List.Forall₂ (fun e e' => e'.1 = e.1 ∧ V e.2 e'.2) t t'

theorem Rel.get? (hrel : Rel V t t') (key : String) :
    Option.Rel V (Fields.get? key t) (Fields.get? key t') := by
  induction hrel with
  | nil => exact .none
  | @cons e e' _ _ hhere _ ih =>
    obtain ⟨name, value⟩ := e
    obtain ⟨name', value'⟩ := e'
    obtain ⟨rfl, hvalue⟩ := hhere
    by_cases hkey : name' = key
    · simpa [Fields.get?, hkey] using hvalue
    · simpa [Fields.get?, hkey] using ih

theorem Rel.insert (hrel : Rel V t t') (key : String) {value : β} {value' : γ}
    (hvalue : V value value') :
    Rel V (Fields.insert key value t) (Fields.insert key value' t') := by
  induction hrel with
  | nil => exact .cons ⟨rfl, hvalue⟩ .nil
  | @cons e e' _ _ hhere hrest ih =>
    obtain ⟨name, old⟩ := e
    obtain ⟨name', old'⟩ := e'
    obtain ⟨rfl, hold⟩ := hhere
    rw [Fields.insert, Fields.insert]
    split
    · exact .cons ⟨rfl, hvalue⟩ hrest
    · split
      · exact .cons ⟨rfl, hvalue⟩ (.cons ⟨rfl, hold⟩ hrest)
      · exact .cons ⟨rfl, hold⟩ ih

theorem eq_of_rel {V : β → β → Prop} {t t' : Fields β} (hrel : Rel V t t')
    (hsame : ∀ e ∈ t, ∀ value, V e.2 value → value = e.2) : t' = t := by
  induction hrel with
  | nil => rfl
  | @cons e e' _ _ hhere _ ih =>
    obtain ⟨hsameHere, hsameRest⟩ := List.forall_mem_cons.mp hsame
    rw [ih hsameRest, Prod.ext hhere.1 (hsameHere _ hhere.2)]

end Fields

namespace Table

variable {β γ : Type} {V : β → γ → Prop} {t : Table β} {t' : Table γ}

/-- Two tables have the same names, and their values correspond. -/
def Rel (V : β → γ → Prop) (t : Table β) (t' : Table γ) : Prop :=
  Fields.Rel V t.entries t'.entries

theorem Rel.get? (hrel : Rel V t t') (key : String) :
    Option.Rel V (Table.get? key t) (Table.get? key t') :=
  Fields.Rel.get? hrel key

theorem Rel.insert (hrel : Rel V t t') (key : String) {value : β} {value' : γ}
    (hvalue : V value value') : Rel V (Table.insert key value t) (Table.insert key value' t') :=
  Fields.Rel.insert hrel key hvalue

theorem eq_of_rel {V : β → β → Prop} {t t' : Table β} (hrel : Rel V t t')
    (hsame : ∀ e ∈ t.entries, ∀ value, V e.2 value → value = e.2) : t' = t :=
  Table.ext (Fields.eq_of_rel hrel hsame)

end Table

/-! ## Settings that are left out -/

/-- The record without what a platform reads for the tag of a node. -/
def Platform.withoutSettings : Platform → Record → Record
  | .dify, r => { r with params := [], inputs := [], outputs := [] }
  | .coze, r => { r with params := [], blocks := none }
  | .bailian, r => { r with params := [] }

/-- Some records of a tag have lost their settings, in a list and in the bodies stored on the
other records. -/
inductive Record.Trims (p : Platform) (tag : String) : List Record → List Record → Prop
  | nil : Trims p tag [] []
  | cut {r : Record} {rs rs' : List Record} :
      r.tag = tag → Trims p tag rs rs' → Trims p tag (r :: rs) (p.withoutSettings r :: rs')
  | keep {r : Record} {rs rs' : List Record} :
      r.blocks = none → Trims p tag rs rs' → Trims p tag (r :: rs) (r :: rs')
  | inside {r : Record} {b : Blocks} {inner rs rs' : List Record} :
      r.blocks = some b → Trims p tag b.records inner → Trims p tag rs rs' →
        Trims p tag (r :: rs) ({ r with blocks := some ⟨inner, b.links⟩ } :: rs')

/-- Some records of a tag have lost their settings, in a body. -/
structure Blocks.Trims (p : Platform) (tag : String) (b b' : Blocks) : Prop where
  records : Record.Trims p tag b.records b'.records
  links : b'.links = b.links

/-- Under the tag that a custom tag stands for, some records of the tag have lost their
settings. -/
def Blocks.TrimsAs (p : Platform) (tag custom : String) (b b' : Blocks) : Prop :=
  b.Trims p tag (b'.retag (unalias custom tag))

/-- Some records of a tag have lost their settings, somewhere in a document. -/
structure Document.Trims (p : Platform) (tag : String) (d d' : Document) : Prop where
  records : Record.Trims p tag d.records d'.records
  links : d'.links = d.links
  sections : Table.Rel (Blocks.Trims p tag) d.sections d'.sections

section

variable {p : Platform} {rs rs' : List Record} {d d' : Document}

@[simp] theorem Platform.id_withoutSettings (p : Platform) (r : Record) :
    (p.withoutSettings r).id = r.id := by
  cases p <;> rfl

@[simp] theorem Platform.tag_withoutSettings (p : Platform) (r : Record) :
    (p.withoutSettings r).tag = r.tag := by
  cases p <;> rfl

theorem Record.Passes.withoutSettings {r : Record} (hr : r.Passes) (p : Platform) :
    (p.withoutSettings r).Passes where
  id := by rw [p.id_withoutSettings, hr.id]
  tag := by rw [p.tag_withoutSettings, hr.tag]
  blocks := by
    cases p with
    | dify => exact hr.blocks
    | coze => exact Blocks.checkOption.eq_1
    | bailian => exact hr.blocks

theorem Blocks.trimsAs_empty {custom : String} : Blocks.TrimsAs p tag custom .empty .empty where
  records := by
    show Record.Trims _ _ [] (Record.retagAll _ [])
    rw [Record.retagAll]
    exact .nil
  links := rfl

theorem Record.Trims.append {qs qs' : List Record} (hrs : Record.Trims p tag rs rs')
    (hqs : Record.Trims p tag qs qs') : Record.Trims p tag (rs ++ qs) (rs' ++ qs') := by
  induction hrs with
  | nil => exact hqs
  | cut htag _ ih => exact .cut htag ih
  | keep hblocks _ ih => exact .keep hblocks ih
  | inside hblocks hinner _ _ ih => exact .inside hblocks hinner ih

/-- Records pass their check without settings too. -/
theorem Record.Trims.passes (htrims : Record.Trims p tag rs rs') :
    (∀ r ∈ rs, r.Passes) → ∀ r ∈ rs', r.Passes := by
  induction htrims with
  | nil => exact fun hpasses => hpasses
  | cut _ _ ih =>
    intro hpasses
    obtain ⟨hr, hrest⟩ := List.forall_mem_cons.mp hpasses
    exact List.forall_mem_cons.mpr ⟨hr.withoutSettings p, ih hrest⟩
  | keep _ _ ih =>
    intro hpasses
    obtain ⟨hr, hrest⟩ := List.forall_mem_cons.mp hpasses
    exact List.forall_mem_cons.mpr ⟨hr, ih hrest⟩
  | @inside r b inner _ _ hblocks _ _ ihInner ih =>
    intro hpasses
    obtain ⟨hr, hrest⟩ := List.forall_mem_cons.mp hpasses
    obtain ⟨records, links⟩ := b
    have hbody := hr.blocks
    rw [hblocks, Blocks.checkOption] at hbody
    refine List.forall_mem_cons.mpr ⟨⟨hr.id, hr.tag, ?_⟩, ih hrest⟩
    show Blocks.checkOption (some ⟨inner, links⟩) = _
    rw [Blocks.checkOption]
    exact Record.checkAll_eq_ok_iff.mpr (ihInner (Record.checkAll_eq_ok_iff.mp hbody))

/-- Where no record of the tag has settings, none are lost. -/
theorem Record.Trims.eq_self (htrims : Record.Trims p tag rs rs') :
    (∀ r, r.Within rs → r.tag = tag → p.withoutSettings r = r) → rs' = rs := by
  induction htrims with
  | nil => exact fun _ => rfl
  | cut htag _ ih =>
    intro hnone
    have hrest := ih fun q hq => hnone q (hq.mono fun _ => List.mem_cons_of_mem _)
    rw [hnone _ (.here List.mem_cons_self) htag, hrest]
  | keep _ _ ih =>
    intro hnone
    rw [ih fun q hq => hnone q (hq.mono fun _ => List.mem_cons_of_mem _)]
  | @inside r b inner _ _ hblocks _ _ ihInner ih =>
    intro hnone
    rw [ih fun q hq => hnone q (hq.mono fun _ => List.mem_cons_of_mem _),
      ihInner fun q hq => hnone q (.inside List.mem_cons_self hblocks hq)]
    cases r
    cases b
    exact congrArg (Record.mk _ _ _ _ _ _ · _ :: _) hblocks.symm

theorem Document.Trims.check (htrims : d.Trims p tag d') (hcheck : d.check = .ok ()) :
    d'.check = .ok () := by
  obtain ⟨hrecords, hsections⟩ := Document.check_eq_ok_iff.mp hcheck
  refine Document.check_eq_ok_iff.mpr ⟨?_, fun e' he' => ?_⟩
  · exact Record.checkAll_eq_ok_iff.mpr
      (htrims.records.passes (Record.checkAll_eq_ok_iff.mp hrecords))
  · obtain ⟨e, he, -, hbody⟩ := exists_of_forall₂_of_mem htrims.sections.flip he'
    exact Record.checkAll_eq_ok_iff.mpr
      (hbody.records.passes (Record.checkAll_eq_ok_iff.mp (hsections e he)))

theorem Blocks.Trims.eq_self {b b' : Blocks} (htrims : b.Trims p tag b')
    (hnone : ∀ r : Record, r.Within b.records → r.tag = tag → p.withoutSettings r = r) :
    b' = b := by
  obtain ⟨records, links⟩ := b
  obtain ⟨records', links'⟩ := b'
  obtain rfl : records' = records := htrims.records.eq_self hnone
  obtain rfl : links' = links := htrims.links
  rfl

/-- A document without settings for the tag stays as it is. -/
theorem Document.Trims.eq_self (htrims : d.Trims p tag d')
    (hnone : ∀ r, d.Holds r → r.tag = tag → p.withoutSettings r = r) : d' = d := by
  obtain ⟨records, links, sections⟩ := d
  obtain ⟨records', links', sections'⟩ := d'
  obtain rfl : records' = records := htrims.records.eq_self fun r hr => hnone r (.root hr)
  obtain rfl : links' = links := htrims.links
  have hsections : ∀ e ∈ sections.entries, ∀ b', e.2.Trims p tag b' → b' = e.2 :=
    fun e he b' hbody => hbody.eq_self fun r hr => hnone r (.nested he hr)
  obtain rfl : sections' = sections := Table.eq_of_rel htrims.sections hsections
  rfl

end

/-! ## Adapters -/

section

theorem Record.retagAll_cons {rename : String → String} (r : Record) (rs : List Record) :
    retagAll rename (r :: rs) = r.retag rename :: retagAll rename rs := by
  rw [retagAll_eq_map, List.map_cons, ← retagAll_eq_map]

theorem Record.retag_eq_self {rename : String → String} {r : Record} (hblocks : r.blocks = none)
    (htag : rename r.tag = r.tag) : r.retag rename = r := by
  obtain ⟨id, tag, title, params, inputs, outputs, blocks, presentation⟩ := r
  obtain rfl : blocks = none := hblocks
  have htag : rename tag = tag := htag
  rw [retag, htag, Blocks.retagOption]

variable {p : Platform}

/-- The records of two lists without bodies correspond one by one. -/
theorem Record.trims_of_forall₂ {rs rs' : List Record} (hflat : List.Forall₂ (fun r r' =>
    r.blocks = none ∧ (r' = r ∨ r.tag = tag ∧ r' = p.withoutSettings r)) rs rs') :
    Record.Trims p tag rs rs' := by
  induction hflat with
  | nil => exact .nil
  | cons hhere _ ih =>
    obtain ⟨hblocks, rfl | ⟨htag, rfl⟩⟩ := hhere
    · exact .keep hblocks ih
    · exact .cut htag ih

end

namespace Dify

/-- A node with a custom tag in place of its tag, or a node that is kept. -/
inductive NodeEntry.Renames (tag custom : String) (e : NodeEntry) : NodeEntry → Prop
  | kept : e.tag ≠ custom → e.Renames tag custom e
  | renamed : e.tag = tag → e.Renames tag custom
      { e with data := Fields.insert "type" (.str custom) e.data }

/-- A canvas in which some nodes of a tag have a custom tag instead, which no node had. -/
structure Canvas.Renames (tag custom : String) (canvas canvas' : Canvas) : Prop where
  nodes : List.Forall₂ (NodeEntry.Renames tag custom) canvas.nodes canvas'.nodes
  links : canvas'.links = canvas.links

/-- Only the tags of the platform have settings. -/
theorem withSettings_eq_self (data : List (String × Json)) {r : Record}
    (hfresh : Platform.dify.kindOfTag? r.tag = none) : withSettings data r = r := by
  unfold withSettings
  extract_lets get text pointer
  split
  case h_9 => rfl
  all_goals next htag => rw [htag] at hfresh; cases hfresh

/-- What a node says whatever its tag is; its settings add parameters, inputs and outputs. -/
theorem exists_toRecord_eq (e : NodeEntry) : ∃ params inputs outputs, e.toRecord =
    ⟨e.id, e.tag, Loose.text? (Fields.get? "title" e.data), params, inputs, outputs, none,
      Loose.presentation e.position (Loose.text? (Fields.get? "desc" e.data))⟩ := by
  obtain ⟨params, inputs, outputs, hrecord⟩ := exists_withSettings_eq e.data _
  exact ⟨params, inputs, outputs, hrecord⟩

theorem toRecord_of_fresh {e : NodeEntry} (hfresh : Platform.dify.kindOfTag? e.tag = none) :
    e.toRecord = ⟨e.id, e.tag, Loose.text? (Fields.get? "title" e.data), [], [], [], none,
      Loose.presentation e.position (Loose.text? (Fields.get? "desc" e.data))⟩ :=
  withSettings_eq_self e.data hfresh

section

variable {e e' : NodeEntry} (hcustom : Platform.dify.kindOfTag? custom = none)

theorem get?_renamed {key : String} (hkey : "type" ≠ key) (data : List (String × Json)) :
    Fields.get? key (Fields.insert "type" (.str custom) data) = Fields.get? key data := by
  rw [Fields.get?_insert, if_neg hkey]

theorem tag_renamed : NodeEntry.tag { e with data := Fields.insert "type" (.str custom) e.data } =
    custom := by
  rw [NodeEntry.tag, Fields.get?_insert, if_pos rfl]
  rfl

theorem parent?_of_renames (hrename : e.Renames tag custom e') : e'.parent? = e.parent? := by
  cases hrename with
  | kept _ => rfl
  | renamed _ => rw [NodeEntry.parent?, NodeEntry.parent?, get?_renamed (by decide)]

include hcustom

/-- A node with the custom tag has the record of the node before without the settings. -/
theorem toRecord_of_renames (hrename : e.Renames tag custom e') :
    e.toRecord.blocks = none ∧ (e'.toRecord.retag (unalias custom tag) = e.toRecord ∨
      e.toRecord.tag = tag ∧ e'.toRecord.retag (unalias custom tag) =
        Platform.dify.withoutSettings e.toRecord) := by
  refine ⟨blocks_toRecord e, ?_⟩
  cases hrename with
  | kept htag =>
    refine Or.inl (Record.retag_eq_self (blocks_toRecord e) ?_)
    rw [tag_toRecord, unalias_of_ne htag]
  | renamed htag =>
    refine Or.inr ⟨(tag_toRecord e).trans htag, ?_⟩
    obtain ⟨params, inputs, outputs, hrecord⟩ := exists_toRecord_eq e
    rw [toRecord_of_fresh (by rw [tag_renamed, hcustom]), tag_renamed,
      get?_renamed (by decide), get?_renamed (by decide), hrecord, htag]
    simp only [Record.retag, unalias_self, Blocks.retagOption, Platform.withoutSettings]

/-- The record of a node is added to corresponding sections. -/
theorem addToSection_of_renames (hrename : e.Renames tag custom e') {table table' : Table Blocks}
    (htable : Table.Rel (Blocks.TrimsAs .dify tag custom) table table') (owner : String) :
    Table.Rel (Blocks.TrimsAs .dify tag custom)
      (addToSection table owner e.toRecord) (addToSection table' owner e'.toRecord) := by
  have hrecord : Record.Trims .dify tag [e.toRecord]
      [e'.toRecord.retag (unalias custom tag)] :=
    Record.trims_of_forall₂ (.cons (toRecord_of_renames hcustom hrename) .nil)
  refine htable.insert owner ?_
  have hsection : Blocks.TrimsAs .dify tag custom ((Table.get? owner table).getD .empty)
      ((Table.get? owner table').getD .empty) := by
    have hfound := htable.get? owner
    generalize Table.get? owner table = found at hfound
    generalize Table.get? owner table' = found' at hfound
    cases hfound with
    | none => exact Blocks.trimsAs_empty
    | some hbody => exact hbody
  refine ⟨?_, hsection.links⟩
  show Record.Trims _ _ _ (Record.retagAll _ _)
  rw [Record.retagAll_eq_map, List.map_append, ← Record.retagAll_eq_map]
  exact hsection.records.append hrecord

/-- Adds the record of a node to the section of its loop, if it is a part of one. -/
def addNode (table : Table Blocks) (e : NodeEntry) : Table Blocks :=
  match e.parent? with
  | some owner => addToSection table owner e.toRecord
  | none => table

theorem sections_of_renames {nodes nodes' : List NodeEntry}
    (hnodes : List.Forall₂ (NodeEntry.Renames tag custom) nodes nodes') :
    Table.Rel (Blocks.TrimsAs .dify tag custom) (sections nodes) (sections nodes') := by
  have hall : ∀ table table', Table.Rel (Blocks.TrimsAs .dify tag custom) table table' →
      Table.Rel (Blocks.TrimsAs .dify tag custom) (nodes.foldl addNode table)
        (nodes'.foldl addNode table') := by
    induction hnodes with
    | nil => exact fun _ _ htable => htable
    | @cons e e' _ _ hrename _ ih =>
      intro table table' htable
      refine ih _ _ ?_
      rw [addNode, addNode, parent?_of_renames hrename]
      cases e.parent? with
      | none => exact htable
      | some owner => exact addToSection_of_renames hcustom hrename htable owner
  exact hall ∅ ∅ List.Forall₂.nil

/-- The document of the canvas with the custom tag is that of the canvas before, with settings
left out. -/
theorem trims_of_renames {canvas canvas' : Canvas} (hrename : canvas.Renames tag custom canvas') :
    canvas.toDocument.Trims .dify tag (canvas'.toDocument.retag (unalias custom tag)) where
  records := by
    have hroot := List.rel_filter (p := fun e : NodeEntry => e.parent?.isNone)
      (q := fun e : NodeEntry => e.parent?.isNone) (R := NodeEntry.Renames tag custom)
      (fun e e' h => by simp only [parent?_of_renames h]) hrename.nodes
    show Record.Trims .dify tag _ (Record.retagAll _ _)
    rw [Record.retagAll_eq_map]
    refine Record.trims_of_forall₂ ?_
    show List.Forall₂ _ (List.map _ _) (List.map _ (List.map _ _))
    rw [List.map_map, List.forall₂_map_left_iff, List.forall₂_map_right_iff]
    exact hroot.imp fun e e' h => toRecord_of_renames hcustom h
  links := hrename.links
  sections := by
    show List.Forall₂ _ _ (List.map _ _)
    rw [List.forall₂_map_right_iff]
    exact sections_of_renames hcustom hrename.nodes

end

/-- The export lists nodes, and it is read as a canvas. -/
def Shows (exported : Json) (canvas : Canvas) : Prop :=
  ((graphPart exported).get? "nodes").isSome = true ∧ Canvas.read (graphPart exported) = .ok canvas

theorem parse_of_shows {exported : Json} {canvas : Canvas} (hshows : Shows exported canvas) :
    parse exported = .ok canvas.toDocument := by
  rw [parse, if_neg (by simpa [Option.isSome_iff_ne_none] using hshows.1), hshows.2]

end Dify

namespace Bailian

/-- A node with a custom tag in place of its tag, or a node that is kept. -/
inductive NodeEntry.Renames (tag custom : String) (e : NodeEntry) : NodeEntry → Prop
  | kept : e.type ≠ custom → e.Renames tag custom e
  | renamed : e.type = tag → e.Renames tag custom { e with type := custom }

/-- A body in which some nodes of a tag have a custom tag instead, which no node had. -/
structure Subflow.Renames (tag custom : String) (s s' : Subflow) : Prop where
  nodes : List.Forall₂ (NodeEntry.Renames tag custom) s.nodes s'.nodes
  links : s'.links = s.links

/-- A flow in which some nodes of a tag have a custom tag instead, which no node had. -/
structure Flow.Renames (tag custom : String) (f f' : Flow) : Prop where
  nodes : List.Forall₂ (NodeEntry.Renames tag custom) f.nodes f'.nodes
  links : f'.links = f.links
  subflows : Table.Rel (Subflow.Renames tag custom) f.subflows f'.subflows

/-- Only the tags of the platform have settings. -/
theorem withSettings_eq_self (config : List (String × Json)) {r : Record}
    (hfresh : Platform.bailian.kindOfTag? r.tag = none) : withSettings config r = r := by
  unfold withSettings
  extract_lets get text
  split
  case h_7 => rfl
  all_goals next htag => rw [htag] at hfresh; cases hfresh

/-- What a node says whatever its tag is; its settings add parameters. -/
theorem exists_toRecord_eq (e : NodeEntry) : ∃ params, e.toRecord =
    ⟨e.id, e.type, e.name, params, e.inputs.map fun p => ⟨p.key, p.type, value p.value⟩,
      e.outputs.map fun p => ⟨p.key, p.type⟩, none,
      Loose.presentation e.position e.description⟩ := by
  obtain ⟨params, hrecord⟩ := exists_withSettings_eq e.config _
  exact ⟨params, hrecord⟩

theorem toRecord_of_fresh {e : NodeEntry} (hfresh : Platform.bailian.kindOfTag? e.type = none) :
    e.toRecord = ⟨e.id, e.type, e.name, [], e.inputs.map fun p => ⟨p.key, p.type, value p.value⟩,
      e.outputs.map fun p => ⟨p.key, p.type⟩, none,
      Loose.presentation e.position e.description⟩ :=
  withSettings_eq_self e.config hfresh

section

variable (hcustom : Platform.bailian.kindOfTag? custom = none)

include hcustom

/-- A node with the custom tag has the record of the node before without the settings. -/
theorem toRecord_of_renames {e e' : NodeEntry} (hrename : e.Renames tag custom e') :
    e.toRecord.blocks = none ∧ (e'.toRecord.retag (unalias custom tag) = e.toRecord ∨
      e.toRecord.tag = tag ∧ e'.toRecord.retag (unalias custom tag) =
        Platform.bailian.withoutSettings e.toRecord) := by
  refine ⟨blocks_toRecord e, ?_⟩
  cases hrename with
  | kept htag =>
    refine Or.inl (Record.retag_eq_self (blocks_toRecord e) ?_)
    rw [tag_toRecord, unalias_of_ne htag]
  | renamed htag =>
    refine Or.inr ⟨(tag_toRecord e).trans htag, ?_⟩
    obtain ⟨params, hrecord⟩ := exists_toRecord_eq e
    rw [toRecord_of_fresh hcustom, hrecord, htag]
    simp only [Record.retag, unalias_self, Blocks.retagOption, Platform.withoutSettings]

theorem trims_toRecord {nodes nodes' : List NodeEntry}
    (hnodes : List.Forall₂ (NodeEntry.Renames tag custom) nodes nodes') :
    Record.Trims .bailian tag (nodes.map NodeEntry.toRecord)
      (Record.retagAll (unalias custom tag) (nodes'.map NodeEntry.toRecord)) := by
  rw [Record.retagAll_eq_map, List.map_map]
  refine Record.trims_of_forall₂ ?_
  rw [List.forall₂_map_left_iff, List.forall₂_map_right_iff]
  exact hnodes.imp fun e e' h => toRecord_of_renames hcustom h

/-- The document of the flow with the custom tag is that of the flow before, with settings
left out. -/
theorem trims_of_renames {f f' : Flow} (hrename : f.Renames tag custom f') :
    f.toDocument.Trims .bailian tag (f'.toDocument.retag (unalias custom tag)) where
  records := trims_toRecord hcustom hrename.nodes
  links := hrename.links
  sections := by
    show List.Forall₂ _ (List.map _ _) (List.map _ (List.map _ _))
    rw [List.map_map, List.forall₂_map_left_iff, List.forall₂_map_right_iff]
    refine hrename.subflows.imp fun e e' h => ⟨h.1, ?_, h.2.links⟩
    exact trims_toRecord hcustom h.2.nodes

end

/-- The export lists nodes, and it is read as a flow. -/
def Shows (exported : Json) (flow : Flow) : Prop :=
  (exported.get? "nodes").isSome = true ∧ Flow.read exported = .ok flow

theorem parse_of_shows {exported : Json} {flow : Flow} (hshows : Shows exported flow) :
    parse exported = .ok flow.toDocument := by
  rw [parse, if_neg (by simpa [Option.isSome_iff_ne_none] using hshows.1), hshows.2]

end Bailian

namespace Coze

/-- Nodes of which some, at any depth, have a custom tag in place of their tag, which no node
had. -/
inductive NodeEntry.RenamesAll (tag custom : String) : List NodeEntry → List NodeEntry → Prop
  | nil : RenamesAll tag custom [] []
  | kept {e : NodeEntry} {blocks' : Option (List NodeEntry)} {es es' : List NodeEntry} :
      e.tag ≠ custom → RenamesAll tag custom e.held (blocks'.getD []) →
        RenamesAll tag custom es es' →
          RenamesAll tag custom (e :: es) ({ e with blocks := blocks' } :: es')
  | renamed {e : NodeEntry} {blocks' : Option (List NodeEntry)} {es es' : List NodeEntry} :
      e.tag = tag → RenamesAll tag custom e.held (blocks'.getD []) →
        RenamesAll tag custom es es' →
          RenamesAll tag custom (e :: es) ({ e with type := .str custom, blocks := blocks' } :: es')

/-- A canvas in which some nodes of a tag have a custom tag instead, which no node had. -/
structure Canvas.Renames (tag custom : String) (canvas canvas' : Canvas) : Prop where
  nodes : NodeEntry.RenamesAll tag custom canvas.nodes canvas'.nodes
  links : canvas'.links = canvas.links

/-- Only the tags of the platform have settings. -/
theorem withSettings_eq_self (data : List (String × Json)) {r : Record}
    (hfresh : Platform.coze.kindOfTag? r.tag = none) : withSettings data r = r := by
  unfold withSettings
  extract_lets get settings setting
  split
  case h_7 => rfl
  all_goals next htag => rw [htag] at hfresh; cases hfresh

/-- What a node says whatever its tag is; its settings add parameters. -/
theorem exists_head_eq (e : NodeEntry) : ∃ title params inputs outputs presentation,
    e.head = ⟨e.id, e.tag, title, params, inputs, outputs, none, presentation⟩ ∧
      ∀ custom blocks, Platform.coze.kindOfTag? custom = none →
        NodeEntry.head { e with type := .str custom, blocks := blocks } =
          ⟨e.id, custom, title, [], inputs, outputs, none, presentation⟩ := by
  obtain ⟨params, hrecord⟩ := exists_withSettings_eq e.data _
  exact ⟨_, params, _, _, _, hrecord, fun custom _ hcustom => withSettings_eq_self e.data hcustom⟩

section

variable (hcustom : Platform.coze.kindOfTag? custom = none)

include hcustom

/-- A node with the custom tag has the record of the node before without the settings. -/
theorem toRecord_renamed (e : NodeEntry) (blocks : Option (List NodeEntry)) (htag : e.tag = tag) :
    (NodeEntry.toRecord { e with type := .str custom, blocks := blocks }).retag
      (unalias custom tag) = Platform.coze.withoutSettings e.toRecord := by
  obtain ⟨title, params, inputs, outputs, presentation, hhead, hrenamed⟩ := exists_head_eq e
  have hplain : NodeEntry.tag { e with type := .str custom, blocks := blocks } ≠ "21" := by
    intro hloop
    obtain rfl : custom = "21" := hloop
    cases hcustom
  have hcut : Platform.coze.withoutSettings e.toRecord =
      ⟨e.id, e.tag, title, [], inputs, outputs, none, presentation⟩ := by
    rw [toRecord_eq, hhead]
    split <;> rfl
  rw [hcut, toRecord_eq, if_neg hplain, hrenamed custom blocks hcustom, htag]
  simp only [Record.retag, unalias_self, Blocks.retagOption]

/-- The records of nodes with the custom tag are those of the nodes before, with settings left
out. -/
theorem trims_toRecords {es es' : List NodeEntry}
    (hrename : NodeEntry.RenamesAll tag custom es es') :
    Record.Trims .coze tag (NodeEntry.toRecords es)
      (Record.retagAll (unalias custom tag) (NodeEntry.toRecords es')) := by
  induction hrename with
  | nil =>
    rw [NodeEntry.toRecords, Record.retagAll]
    exact .nil
  | @kept e blocks' _ _ htag _ _ ihHeld ih =>
    rw [NodeEntry.toRecords, NodeEntry.toRecords, Record.retagAll_cons]
    have hkept : unalias custom tag e.tag = e.tag := unalias_of_ne htag
    obtain ⟨title, params, inputs, outputs, presentation, hhead, -⟩ := exists_head_eq e
    have hhead' : NodeEntry.head { e with blocks := blocks' } = e.head := rfl
    have htag' : NodeEntry.tag { e with blocks := blocks' } = e.tag := rfl
    by_cases hloop : e.tag = "21"
    · rw [toRecord_eq e, if_pos hloop, toRecord_eq, if_pos (htag'.trans hloop), hhead', hhead]
      simp only [Record.retag, Blocks.retagOption, hkept]
      have hbody : Record.Trims .coze tag (Blocks.mk (NodeEntry.toRecords e.held)
          (e.links.getD [])).records _ := ihHeld
      exact .inside rfl hbody ih
    · rw [toRecord_eq e, if_neg hloop, toRecord_eq, if_neg (htag' ▸ hloop), hhead', hhead]
      simp only [Record.retag, Blocks.retagOption, hkept]
      exact .keep rfl ih
  | @renamed e blocks' _ _ htag _ _ _ ih =>
    rw [NodeEntry.toRecords, NodeEntry.toRecords, Record.retagAll_cons,
      toRecord_renamed hcustom e blocks' htag]
    exact .cut ((tag_toRecord e).trans htag) ih

/-- The document of the canvas with the custom tag is that of the canvas before, with settings
left out. -/
theorem trims_of_renames {canvas canvas' : Canvas} (hrename : canvas.Renames tag custom canvas') :
    canvas.toDocument.Trims .coze tag (canvas'.toDocument.retag (unalias custom tag)) where
  records := trims_toRecords hcustom hrename.nodes
  links := hrename.links
  sections := List.Forall₂.nil

end

/-- The export lists nodes, and it is read as a canvas. -/
def Shows (exported : Json) (canvas : Canvas) : Prop :=
  (exported.get? "nodes").isSome = true ∧ Canvas.read exported = .ok canvas

theorem parse_of_shows {exported : Json} {canvas : Canvas} (hshows : Shows exported canvas) :
    parse exported = .ok canvas.toDocument := by
  rw [parse, if_neg (by simpa [Option.isSome_iff_ne_none] using hshows.1), hshows.2]
  rfl

end Coze

namespace Platform

/-- Two exports of a platform differ in the tags of some nodes: in place of a tag they have a
custom one, which no node had before. -/
def Renames (tag custom : String) : Platform → Json → Json → Prop
  | .dify, exported, renamed => ∃ canvas canvas', Dify.Shows exported canvas ∧
      Dify.Shows renamed canvas' ∧ canvas.Renames tag custom canvas'
  | .coze, exported, renamed => ∃ canvas canvas', Coze.Shows exported canvas ∧
      Coze.Shows renamed canvas' ∧ canvas.Renames tag custom canvas'
  | .bailian, exported, renamed => ∃ flow flow', Bailian.Shows exported flow ∧
      Bailian.Shows renamed flow' ∧ flow.Renames tag custom flow'

variable {p : Platform} {exported renamed : Json}

/-- Under the tag that the custom tag stands for, the document of the changed export is that of
the export before, with settings left out. -/
theorem Renames.exists_reshape (hcustom : p.kindOfTag? custom = none)
    (hrename : p.Renames tag custom exported renamed) :
    ∃ d d', p.reshape exported = .ok d ∧ p.reshape renamed = .ok d' ∧
      d.Trims p tag (d'.retag (unalias custom tag)) := by
  cases p with
  | dify =>
    obtain ⟨canvas, canvas', hshows, hshows', hcanvas⟩ := hrename
    exact ⟨_, _, Dify.parse_of_shows hshows, Dify.parse_of_shows hshows',
      Dify.trims_of_renames hcustom hcanvas⟩
  | coze =>
    obtain ⟨canvas, canvas', hshows, hshows', hcanvas⟩ := hrename
    exact ⟨_, _, Coze.parse_of_shows hshows, Coze.parse_of_shows hshows',
      Coze.trims_of_renames hcustom hcanvas⟩
  | bailian =>
    obtain ⟨flow, flow', hshows, hshows', hflow⟩ := hrename
    exact ⟨_, _, Bailian.parse_of_shows hshows, Bailian.parse_of_shows hshows',
      Bailian.trims_of_renames hcustom hflow⟩

theorem parseDocument_of_reshape {d : Document} (hshape : p.reshape exported = .ok d)
    (hcheck : d.check = .ok ()) : p.parseDocument exported = .ok d := by
  rw [parseDocument, hshape]
  simp [hcheck, bind, Except.bind, pure, Except.pure]

theorem isBlankText_of_kindOfTag? (hkind : p.kindOfTag? tag = some kind) :
    Text.isBlankText tag = false := by
  have htags : ∀ entry ∈ p.nodeTags, Text.isBlankText entry.1 = false := by cases p <;> decide
  exact htags _ (Registry.mem_nodeTags_of_kindOfTag? hkind)

/-- The records of a tag that is not one of the platform have no parameters. -/
theorem params_of_fresh {d : Document} (hparse : p.reshape exported = .ok d) {r : Record}
    (hr : d.Holds r) (hfresh : p.kindOfTag? r.tag = none) : r.params = [] := by
  cases p with
  | dify =>
    obtain ⟨e, -, rfl⟩ := Dify.exists_toRecord_of_parse hparse hr
    rw [Dify.tag_toRecord] at hfresh
    rw [Dify.toRecord_of_fresh hfresh]
  | coze =>
    obtain ⟨e, -, rfl⟩ := Coze.exists_toRecord_of_parse hparse hr
    rw [Coze.tag_toRecord] at hfresh
    rw [Coze.toRecord_eq]
    have hhead : e.head.params = [] := by
      rw [Coze.NodeEntry.head, Coze.withSettings_eq_self e.data hfresh]
      rfl
    split
    · exact hhead
    · exact hhead
  | bailian =>
    obtain ⟨e, -, rfl⟩ := Bailian.exists_toRecord_of_parse hparse hr
    rw [Bailian.tag_toRecord] at hfresh
    rw [Bailian.toRecord_of_fresh hfresh]

end Platform

namespace Conversion

variable {p : Platform} {exported renamed : Json}

/-- With a custom tag mapped to the kind of a tag of the platform, an export is converted like
its document with that tag in place of the custom one. -/
theorem ofJson_register (hkind : p.kindOfTag? tag = some kind)
    (hfresh : p.kindOfTag? custom = none) (hplain : p.isPseudoTag custom = false)
    (hblank : Text.isBlankText custom = false) {d : Document}
    (hparse : p.parseDocument exported = .ok d) :
    (ofJson ((Registry.withDefaults p).register custom (.builtIn kind)) exported).map
        Conversion.graph =
      (ofDocument (.withDefaults p) (d.retag (unalias custom tag))).map Conversion.graph := by
  have hg : (Registry.withDefaults p).UsesBuiltIns := Registry.Derived.defaults.usesBuiltIns
  have hplatform : (Registry.withDefaults p).platform = p := Registry.Derived.defaults.platform_eq
  have hmapped : ((Registry.withDefaults p).register custom (.builtIn kind)).platform = p :=
    hplatform
  have hdecoder := (Registry.kind?_withDefaults p tag).trans hkind
  have htag : p.isPseudoTag tag = false := Registry.isPseudoTag_of_kind? hdecoder
  have hblankTag := Platform.isBlankText_of_kindOfTag? hkind
  have hreadable : ∀ r, d.Holds r → r.tag = custom → Params.Readable kind r.params := by
    intro r hr hcustom
    rw [Platform.params_of_fresh (Platform.reshape_of_parseDocument hparse) hr
      (hcustom ▸ hfresh)]
    exact Params.readable_nil kind
  rw [ofJson, hmapped, hparse]
  exact ofDocument_register hg hdecoder (by rwa [hplatform]) (by rwa [hplatform])
    (hblankTag.trans hblank.symm) hreadable

/-- With a custom tag mapped to a kind, an export in which some nodes of a tag have the custom
one has the graph of the document from which the settings of these nodes are left out. If the
nodes of the tag have no settings, that is the graph of the export before. -/
structure LosesSettings (p : Platform) (kind : NodeKind) (tag custom : String)
    (exported renamed : Json) (c : Conversion) (d d' : Document) : Prop where
  before : p.parseDocument exported = .ok d
  after : p.parseDocument renamed = .ok d'
  trims : d.Trims p tag (d'.retag (unalias custom tag))
  graph : (ofJson ((Registry.withDefaults p).register custom (.builtIn kind)) renamed).map
      Conversion.graph =
    (ofDocument (.withDefaults p) (d'.retag (unalias custom tag))).map Conversion.graph
  unchanged : (∀ r, d.Holds r → r.tag = tag → p.withoutSettings r = r) →
    (ofJson ((Registry.withDefaults p).register custom (.builtIn kind)) renamed).map
      Conversion.graph = .ok c.graph

/-- A custom tag that is mapped to the kind of a tag of the platform is converted like that tag,
but for the settings of its nodes. -/
theorem ofJson_renamed (hkind : p.kindOfTag? tag = some kind)
    (hfresh : p.kindOfTag? custom = none) (hplain : p.isPseudoTag custom = false)
    (hblank : Text.isBlankText custom = false)
    (hrename : p.Renames tag custom exported renamed) {c : Conversion}
    (hc : ofJson (.withDefaults p) exported = .ok c) :
    ∃ d d', LosesSettings p kind tag custom exported renamed c d d' := by
  obtain ⟨d, d', hshape, hshape', htrims⟩ := hrename.exists_reshape hfresh
  obtain ⟨other, hparse, hconverted⟩ := exists_parse_of_ofJson hc
  rw [Registry.Derived.defaults.platform_eq] at hparse
  obtain rfl : other = d :=
    Except.ok.inj ((Platform.reshape_of_parseDocument hparse).symm.trans hshape)
  have hblankTag := Platform.isBlankText_of_kindOfTag? hkind
  -- The mapped converter sees the custom tag, so its document is checked with that tag.
  have hcheck' : d'.check = .ok () := by
    rw [← Document.check_retag (apply_unalias (hblankTag.trans hblank.symm))]
    obtain ⟨⟨_, hcheck⟩, -⟩ := ofDocument_eq_ok_iff.mp hconverted
    exact htrims.check hcheck
  have hparse' := Platform.parseDocument_of_reshape hshape' hcheck'
  have hgraph := ofJson_register hkind hfresh hplain hblank hparse'
  refine ⟨other, d', hparse, hparse', htrims, hgraph, fun hnone => ?_⟩
  rw [hgraph, htrims.eq_self hnone, hconverted]
  rfl

/-- A start node and an answer. -/
def answering (tag : String) : Json :=
  .obj [("nodes", .arr
    [.obj [("id", .str "begin"), ("data", .obj [("type", .str "start")])],
     .obj [("id", .str "reply"),
      ("data", .obj [("answer", .str "hi"), ("type", .str tag)])]]),
   ("edges", .arr [.obj [("source", .str "begin"), ("target", .str "reply")]])]

/-- The canvas of a start node and an answer. -/
def answeringCanvas (tag : String) : Dify.Canvas :=
  ⟨[⟨"begin", none, none, [("type", .str "start")]⟩,
    ⟨"reply", none, none, [("answer", .str "hi"), ("type", .str tag)]⟩],
   [⟨"", "begin", none, "reply", none⟩]⟩

theorem shows_answering (tag : String) : Dify.Shows (answering tag) (answeringCanvas tag) :=
  ⟨rfl, rfl⟩

theorem renames_answering :
    Platform.dify.Renames "answer" "answer-v2" (answering "answer") (answering "answer-v2") := by
  refine ⟨_, _, shows_answering _, shows_answering _, ?_, rfl⟩
  refine .cons (.kept (by decide)) (.cons ?_ .nil)
  have hanswer : Dify.NodeEntry.tag
    ⟨"reply", none, none, [("answer", .str "hi"), ("type", .str "answer")]⟩ = "answer" := rfl
  exact .renamed hanswer

theorem ofJson_renamed_answering :
    Platform.dify.kindOfTag? "answer" = some .finish ∧
      Platform.dify.kindOfTag? "answer-v2" = none ∧
      Platform.dify.isPseudoTag "answer-v2" = false ∧ Text.isBlankText "answer-v2" = false ∧
      Platform.dify.Renames "answer" "answer-v2" (answering "answer") (answering "answer-v2") ∧
      ∃ c, ofJson (.withDefaults .dify) (answering "answer") = .ok c ∧
        ∃ d d', LosesSettings .dify .finish "answer" "answer-v2" (answering "answer")
          (answering "answer-v2") c d d' := by
  obtain ⟨c, hc, -⟩ := exists_ok_of_any (q := fun c => c.report.isClean)
    (x := ofJson (.withDefaults .dify) (answering "answer")) (by decide +kernel)
  have hblank : Text.isBlankText "answer-v2" = false := by decide +kernel
  exact ⟨rfl, rfl, rfl, hblank, renames_answering, c, hc,
    ofJson_renamed rfl rfl rfl hblank renames_answering hc⟩

/-- The answers that the outermost end nodes of a graph give. -/
def answers (graph : Graph) : List (Option String) :=
  graph.nodes.filterMap fun n =>
    match n.config with
    | .finish answer => some answer
    | _ => none

/-- The answer is lost with the custom tag, and nothing is reported. -/
theorem answering_loses :
    Platform.dify.kindOfTag? "answer" = some .finish ∧
      Platform.dify.kindOfTag? "answer-v2" = none ∧
      Platform.dify.isPseudoTag "answer-v2" = false ∧ Text.isBlankText "answer-v2" = false ∧
      Platform.dify.Renames "answer" "answer-v2" (answering "answer") (answering "answer-v2") ∧
      ∃ c c', ofJson (.withDefaults .dify) (answering "answer") = .ok c ∧
        ofJson ((Registry.withDefaults .dify).register "answer-v2" (.builtIn .finish))
          (answering "answer-v2") = .ok c' ∧
        c'.graph ≠ c.graph ∧ c'.report.isClean = true := by
  obtain ⟨c, hc, hgiven⟩ := exists_ok_of_any (q := fun c => answers c.graph == [some "hi"])
    (x := ofJson (.withDefaults .dify) (answering "answer")) (by decide +kernel)
  obtain ⟨c', hc', hlost⟩ := exists_ok_of_any
    (q := fun c => answers c.graph == [none] && c.report.isClean)
    (x := ofJson ((Registry.withDefaults .dify).register "answer-v2" (.builtIn .finish))
      (answering "answer-v2")) (by decide +kernel)
  obtain ⟨hnone, hclean⟩ := Bool.and_eq_true_iff.mp hlost
  refine ⟨rfl, rfl, rfl, by decide +kernel, renames_answering, c, c', hc, hc',
    fun hsame => ?_, hclean⟩
  have hanswers := (eq_of_beq hnone).symm.trans ((congrArg answers hsame).trans (eq_of_beq hgiven))
  cases hanswers

end Conversion

end

end WorkflowGraph
