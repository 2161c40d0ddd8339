/-
# Aliases of tags

A registry may decode the records of some tags as another registry decodes those of other
tags. A document and the document with its tags changed accordingly are then converted to the
same graph: both are surveyed, lifted and assembled side by side. The report may name the tags
and is left out of the comparison; so is what a registry cannot decode, as placeholders show
the tag of their record.
-/

import Mathlib.Data.Option.Basic
import WorkflowGraph.Proofs.RecordFindings
import WorkflowGraph.Proofs.StorageLayouts

namespace WorkflowGraph

/-! ## Changing tags -/

mutual

/-- The records of a list with other tags, also in the bodies that are stored on them. -/
def Record.retagAll (rename : String → String) : List Record → List Record
  | [] => []
  | ⟨id, tag, title, params, inputs, outputs, blocks, presentation⟩ :: rs =>
    ⟨id, rename tag, title, params, inputs, outputs, Blocks.retagOption rename blocks,
      presentation⟩ :: Record.retagAll rename rs

/-- The body that is stored on a record, with other tags. -/
def Blocks.retagOption (rename : String → String) : Option Blocks → Option Blocks
  | none => none
  | some ⟨records, links⟩ => some ⟨Record.retagAll rename records, links⟩

end

/-- The record with another tag, also in the body that is stored on it. -/
def Record.retag (rename : String → String) (r : Record) : Record :=
  { r with tag := rename r.tag, blocks := Blocks.retagOption rename r.blocks }

/-- The body with other tags. -/
def Blocks.retag (rename : String → String) (b : Blocks) : Blocks :=
  ⟨Record.retagAll rename b.records, b.links⟩

/-- The document with other tags. -/
def Document.retag (rename : String → String) (d : Document) : Document :=
  ⟨Record.retagAll rename d.records, d.links, d.sections.map (Blocks.retag rename)⟩

section

variable {rename : String → String}

theorem Record.retagAll_eq_map (rs : List Record) :
    retagAll rename rs = rs.map (retag rename) := by
  induction rs with
  | nil => rw [retagAll, List.map_nil]
  | cons r rs ih =>
    cases r
    rw [retagAll, ih]
    rfl

@[simp] theorem Record.retag_id (r : Record) : (r.retag rename).id = r.id := rfl

@[simp] theorem Record.retag_tag (r : Record) : (r.retag rename).tag = rename r.tag := rfl

@[simp] theorem Record.retag_displayTitle (r : Record) :
    (r.retag rename).displayTitle = r.displayTitle := rfl

@[simp] theorem Record.retag_presentation (r : Record) :
    (r.retag rename).presentation = r.presentation := rfl

theorem Blocks.retagOption_eq_map (blocks : Option Blocks) :
    retagOption rename blocks = blocks.map (retag rename) := by
  cases blocks with
  | none => rw [retagOption, Option.map_none]
  | some b =>
    cases b
    rw [retagOption]
    rfl

mutual

theorem Record.inlineDepth_retagAll :
    (rs : List Record) → Record.inlineDepth (Record.retagAll rename rs) = Record.inlineDepth rs
  | [] => by rw [Record.retagAll]
  | ⟨id, tag, title, params, inputs, outputs, blocks, presentation⟩ :: rs => by
    rw [Record.retagAll, Record.inlineDepth, Record.inlineDepth,
      Blocks.inlineDepth_retagOption blocks, Record.inlineDepth_retagAll rs]

theorem Blocks.inlineDepth_retagOption : (blocks : Option Blocks) →
    Blocks.inlineDepth (Blocks.retagOption rename blocks) = Blocks.inlineDepth blocks
  | none => by rw [Blocks.retagOption]
  | some ⟨records, _⟩ => by
    rw [Blocks.retagOption, Blocks.inlineDepth, Blocks.inlineDepth,
      Record.inlineDepth_retagAll records]

end

mutual

/-- A list passes the check as before if no tag becomes blank. -/
theorem Record.checkAll_retagAll
    (hblank : ∀ tag, Text.isBlankText (rename tag) = Text.isBlankText tag) :
    (rs : List Record) → ∀ index,
      Record.checkAll index (Record.retagAll rename rs) = Record.checkAll index rs
  | [], _ => by rw [Record.retagAll]
  | ⟨id, tag, title, params, inputs, outputs, blocks, presentation⟩ :: rs, index => by
    rw [Record.retagAll, Record.checkAll, Record.checkAll, hblank,
      Blocks.checkOption_retagOption hblank blocks, Record.checkAll_retagAll hblank rs]

theorem Blocks.checkOption_retagOption
    (hblank : ∀ tag, Text.isBlankText (rename tag) = Text.isBlankText tag) :
    (blocks : Option Blocks) →
      Blocks.checkOption (Blocks.retagOption rename blocks) = Blocks.checkOption blocks
  | none => by rw [Blocks.retagOption]
  | some ⟨records, _⟩ => by
    rw [Blocks.retagOption, Blocks.checkOption, Blocks.checkOption,
      Record.checkAll_retagAll hblank records]

end

namespace Document

variable {d : Document}

theorem depthBound_retag : (d.retag rename).depthBound = d.depthBound := by
  have hinline : (d.retag rename).inlineDepth = d.inlineDepth := by
    simp only [inlineDepth, retag, Table.entries_map, List.foldl_map, Blocks.retag,
      Record.inlineDepth_retagAll]
  rw [depthBound, depthBound, hinline]
  simp [retag]

theorem check_retag (hblank : ∀ tag, Text.isBlankText (rename tag) = Text.isBlankText tag) :
    (d.retag rename).check = d.check := by
  simp only [check, retag, Table.entries_map, List.forM_eq_forM, List.forM_map, Blocks.retag,
    Record.checkAll_retagAll hblank]

theorem get?_sections_retag (id : String) : Table.get? id (d.retag rename).sections =
    (Table.get? id d.sections).map (Blocks.retag rename) :=
  Table.get?_map _ _ _

theorem body?_retag (r : Record) :
    (d.retag rename).body? (r.retag rename) = (d.body? r).map (Blocks.retag rename) := by
  show (Blocks.retagOption rename r.blocks).orElse (fun _ =>
    Table.get? r.id (d.retag rename).sections) = _
  rw [get?_sections_retag, Blocks.retagOption_eq_map, body?]
  cases r.blocks <;> rfl

end Document

end

/-- What comes back of two computations that are related corresponds, or nothing comes back of
either. -/
theorem optionRel_bind {α β γ δ : Type} {R : α → β → Prop} {S : γ → δ → Prop} {x : Option α}
    {y : Option β} {f : α → Option γ} {f' : β → Option δ} (hxy : Option.Rel R x y)
    (hf : ∀ a b, x = some a → R a b → Option.Rel S (f a) (f' b)) :
    Option.Rel S (x >>= f) (y >>= f') := by
  cases hxy with
  | none => exact .none
  | some hab => exact hf _ _ rfl hab

theorem optionRel_map {α β γ δ : Type} {R : α → β → Prop} {S : γ → δ → Prop} {x : Option α}
    {y : Option β} {f : α → γ} {f' : β → δ} (hxy : Option.Rel R x y)
    (hf : ∀ a b, R a b → S (f a) (f' b)) : Option.Rel S (x.map f) (y.map f') := by
  cases hxy with
  | none => exact .none
  | some hab => exact .some (hf _ _ hab)

/-- No decoder of the library looks at the tag of a record or at the body stored on it. -/
theorem Decoder.decode_builtIn_retag {rename : String → String} (kind : NodeKind)
    (ctx : DecodeContext) (r : Record) :
    (builtIn kind).decode ctx (r.retag rename) = (builtIn kind).decode ctx r := by
  cases kind <;> rfl

/-! ## Registries that agree up to the names of tags -/

/-- A registry decodes the records of each tag as another one decodes those of the tag under
its other name, and the two agree on the loop-start records. -/
structure Registry.Follows (rename : String → String) (g other : Registry) : Prop where
  platform : other.platform = g.platform
  isPseudoTag : ∀ tag, g.platform.isPseudoTag (rename tag) = g.platform.isPseudoTag tag
  decoder : ∀ tag, Table.get? (rename tag) g.decoders = Table.get? tag other.decoders

/-- The record can be decoded in every context, or its tag keeps its name. -/
def Record.Keeps (rename : String → String) (other : Registry) (r : Record) : Prop :=
  (∀ ctx, ∃ n, other.decode ctx r = .ok n) ∨ rename r.tag = r.tag

section

variable {rename : String → String} {g other : Registry} {d : Document}

namespace Registry

theorem Follows.kind? (hfollows : g.Follows rename other) (tag : String) :
    g.kind? (rename tag) = other.kind? tag := by
  rw [Registry.kind?, Registry.kind?, hfollows.decoder]

theorem tag_eq_of_keeps {r : Record} (hkeeps : r.Keeps rename other) {ctx : DecodeContext}
    {e : DecodeError} (hfails : other.decode ctx r = .error e) : rename r.tag = r.tag := by
  refine hkeeps.resolve_left fun hdecodes => ?_
  obtain ⟨n, hn⟩ := hdecodes ctx
  cases hn.symm.trans hfails

/-- A record is decoded like the record with the other tag, if it can be decoded or its tag
keeps its name. -/
theorem Follows.decode (hfollows : g.Follows rename other) (hother : other.UsesBuiltIns)
    {r : Record} (hkeeps : r.Keeps rename other) (ctx : DecodeContext) :
    g.decode ctx (r.retag rename) = other.decode ctx r := by
  have hdecoder := hfollows.decoder r.tag
  cases hfound : Table.get? r.tag other.decoders with
  | some decoder =>
    have hsame : decoder.decode ctx (r.retag rename) = decoder.decode ctx r := by
      rw [hother _ _ hfound]
      exact Decoder.decode_builtIn_retag decoder.kind ctx r
    rw [hfound] at hdecoder
    simp only [Registry.decode, Registry.decoder, hfound, hdecoder, Record.retag_tag]
    exact hsame
  | none =>
    have hfails : other.decode ctx r = .error (.notRegistered r.tag) := by
      simp only [Registry.decode, Registry.decoder, hfound]
      rfl
    have htag := tag_eq_of_keeps hkeeps hfails
    rw [hfound, htag] at hdecoder
    rw [hfails]
    simp only [Registry.decode, Registry.decoder, Record.retag_tag, htag, hdecoder]
    rfl

end Registry

namespace Survey

/-- One record calls for the same entries under its other tag. -/
theorem ofRecord_retag (hfollows : g.Follows rename other)
    {inner inner' : String → Blocks → Option (List Resolver.Entry)}
    (hinner : ∀ loop b, inner' loop (b.retag rename) = inner loop b) (owner : Option String)
    (r : Record) :
    ofRecord g (d.retag rename) inner' owner (r.retag rename) =
      ofRecord other d inner owner r := by
  unfold ofRecord
  rw [Record.retag_tag, Record.retag_id, hfollows.isPseudoTag, hfollows.kind?,
    Document.body?_retag, hfollows.platform]
  cases owner.filter fun _ => g.platform.isPseudoTag r.tag with
  | some loop => rfl
  | none =>
    cases d.body? r with
    | none => rfl
    | some body => simp only [Option.map_some, hinner]; rfl

theorem ofRecords_retag (hfollows : g.Follows rename other)
    {inner inner' : String → Blocks → Option (List Resolver.Entry)}
    (hinner : ∀ loop b, inner' loop (b.retag rename) = inner loop b) (owner : Option String)
    (rs : List Record) :
    ofRecords g (d.retag rename) inner' owner (rs.map (Record.retag rename)) =
      ofRecords other d inner owner rs := by
  induction rs with
  | nil => rfl
  | cons r rs ih =>
    rw [List.map_cons, ofRecords, ofRecords, ofRecord_retag hfollows hinner, ih]

theorem within_retag (hfollows : g.Follows rename other) (n : Nat) (owner : Option String)
    (rs : List Record) :
    within g (d.retag rename) n owner (Record.retagAll rename rs) =
      within other d n owner rs := by
  induction n generalizing owner rs with
  | zero => rfl
  | succ n ih =>
    rw [within, within, Record.retagAll_eq_map]
    exact ofRecords_retag hfollows (fun loop b => ih (some loop) b.records) owner rs

/-- Both documents have the same resolver. -/
theorem resolver?_retag (hfollows : g.Follows rename other) :
    resolver? g (d.retag rename) = resolver? other d := by
  rw [resolver?, resolver?, Document.depthBound_retag]
  exact congrArg (Option.map _) (within_retag hfollows _ _ _)

end Survey

/-! ## Harvests -/

/-- The slot with the other tag, if it waits for a record. -/
def Slot.retag (rename : String → String) : Slot → Slot
  | .ready n => .ready n
  | .deferred r => .deferred (r.retag rename)

namespace Harvest

/-- A harvest is that of the records with other tags: all but the report, which may name the
tags, is the same up to the tags of the records that are still to be decoded. -/
structure Retags (rename : String → String) (h h' : Harvest) : Prop where
  levels : h'.levels = h.levels.map fun e => (e.1, e.2.map (Slot.retag rename))
  links : h'.links = h.links
  placed : h'.placed = h.placed
  starts : h'.starts = h.starts
  removed : h'.removed = h.removed
  usedSections : h'.usedSections = h.usedSections

theorem Retags.append {a a' b b' : Harvest} (ha : Retags rename a a') (hb : Retags rename b b') :
    Retags rename (a ++ b) (a' ++ b') where
  levels := by simp only [levels_append, ha.levels, hb.levels, List.map_append]
  links := by simp only [links_append, ha.links, hb.links]
  placed := by simp only [placed_append, ha.placed, hb.placed]
  starts := by simp only [starts_append, ha.starts, hb.starts]
  removed := by simp only [removed_append, ha.removed, hb.removed]
  usedSections := by simp only [usedSections_append, ha.usedSections, hb.usedSections]

/-- A harvest without levels is its own. -/
theorem Retags.refl {h : Harvest} (hlevels : h.levels = []) : Retags rename h h where
  levels := by rw [hlevels, List.map_nil]
  links := rfl
  placed := rfl
  starts := rfl
  removed := rfl
  usedSections := rfl

theorem retags_ofDropped (owner : String) (r : Record) (reason : String) :
    Retags rename (ofDropped owner r reason) (ofDropped owner (r.retag rename) reason) :=
  ⟨rfl, rfl, rfl, rfl, rfl, rfl⟩

mutual

theorem retags_ofUnlifted {p : Platform}
    (hpseudo : ∀ tag, p.isPseudoTag (rename tag) = p.isPseudoTag tag) (owner : String) :
    (b : Blocks) →
      Retags rename (ofUnlifted p owner b) (ofUnlifted p owner (b.retag rename))
  | ⟨records, links⟩ => by
    rw [Blocks.retag, ofUnlifted, ofUnlifted]
    exact (Retags.refl rfl).append (retags_ofUnliftedRecords hpseudo owner records)

theorem retags_ofUnliftedRecords {p : Platform}
    (hpseudo : ∀ tag, p.isPseudoTag (rename tag) = p.isPseudoTag tag) (owner : String) :
    (rs : List Record) → Retags rename (ofUnliftedRecords p owner rs)
      (ofUnliftedRecords p owner (Record.retagAll rename rs))
  | [] => by
    rw [Record.retagAll]
    exact Retags.refl rfl
  | ⟨id, tag, title, params, inputs, outputs, blocks, presentation⟩ :: rs => by
    have hrest := retags_ofUnliftedRecords hpseudo owner rs
    rw [Record.retagAll, ofUnliftedRecords, ofUnliftedRecords, hpseudo]
    split
    · exact (Retags.refl rfl).append hrest
    · have hinner := retags_ofUnliftedInner hpseudo id blocks
      exact ((retags_ofDropped _ _ _).append hinner).append hrest

theorem retags_ofUnliftedInner {p : Platform}
    (hpseudo : ∀ tag, p.isPseudoTag (rename tag) = p.isPseudoTag tag) (owner : String) :
    (blocks : Option Blocks) → Retags rename (ofUnliftedInner p owner blocks)
      (ofUnliftedInner p owner (Blocks.retagOption rename blocks))
  | none => by
    rw [Blocks.retagOption]
    exact Retags.refl rfl
  | some ⟨records, links⟩ => by
    rw [Blocks.retagOption, ofUnliftedInner, ofUnliftedInner]
    exact retags_ofUnlifted hpseudo owner ⟨records, links⟩

end

end Harvest

namespace Lift

variable (resolver : Resolver)

theorem placeholder_retag {r : Record} (htag : rename r.tag = r.tag) (p : Platform) :
    placeholder p (r.retag rename) = placeholder p r := by
  unfold placeholder
  have hcode : placeholderCode p (r.retag rename) = placeholderCode p r := by
    unfold placeholderCode
    rw [Record.retag_tag, Record.retag_id, htag]
  rw [hcode, Record.retag_tag, Record.retag_id, Record.retag_displayTitle,
    Record.retag_presentation, htag]

/-- A record yields the same under its other tag: where it cannot be decoded, its tag keeps its
name, so that its placeholder and its finding do too. -/
theorem decodeRecord_retag (hfollows : g.Follows rename other) (hother : other.UsesBuiltIns)
    {r : Record} (hkeeps : r.Keeps rename other) (level : Level) (removed : List String) :
    decodeRecord g resolver level removed (r.retag rename) =
      decodeRecord other resolver level removed r := by
  have hcontext : context g resolver removed = context other resolver removed := by
    rw [context, context, hfollows.platform]
  have hdecode := hfollows.decode hother hkeeps (context other resolver removed)
  rw [← hcontext] at hdecode
  cases hresult : other.decode (context other resolver removed) r with
  | ok n =>
    rw [hcontext, hresult] at hdecode
    rw [decodeRecord_of_ok (hcontext ▸ hdecode), decodeRecord_of_ok hresult]
  | error e =>
    rw [hcontext, hresult] at hdecode
    have htag := Registry.tag_eq_of_keeps hkeeps hresult
    cases level with
    | root =>
      rw [decodeRecord_root_of_error (hcontext ▸ hdecode), decodeRecord_root_of_error hresult,
        hfollows.platform, placeholder_retag htag, Harvest.ofPlaceholder, Harvest.ofPlaceholder,
        Record.retag_id, Record.retag_tag, htag]
    | body owner =>
      rw [decodeRecord_body_of_error (hcontext ▸ hdecode), decodeRecord_body_of_error hresult,
        Harvest.ofDropped, Harvest.ofDropped, Record.retag_id, Record.retag_tag, htag]

theorem usedSection_retag (r : Record) :
    usedSection (d.retag rename) (r.retag rename) = usedSection d r := by
  have hblocks : (r.retag rename).blocks.isNone = r.blocks.isNone := by
    show (Blocks.retagOption rename r.blocks).isNone = _
    rw [Blocks.retagOption_eq_map, Option.isNone_map]
  simp only [usedSection, hblocks, Record.retag_id, Table.hasKey_eq_isSome_get?,
    Document.get?_sections_retag, Option.isSome_map]

/-- Two ways to lift bodies correspond on the bodies of records of the document. -/
def InnerRetags (rename : String → String) (d : Document)
    (inner inner' : Level → List String → Blocks → Option Harvest) : Prop :=
  ∀ level removed body, (∀ r ∈ body.records, d.Holds r) →
    Option.Rel (Harvest.Retags rename) (inner level removed body)
      (inner' level removed (body.retag rename))

variable {inner inner' : Level → List String → Blocks → Option Harvest}

theorem bodyHarvest_retag (hfollows : g.Follows rename other)
    (hinner : InnerRetags rename d inner inner') {r : Record} (hr : d.Holds r)
    (removed : List String) (n : Option Node) :
    Option.Rel (Harvest.Retags rename) (bodyHarvest other d inner removed r n)
      (bodyHarvest g (d.retag rename) inner' removed (r.retag rename) n) := by
  unfold bodyHarvest
  rw [usedSection_retag, Document.body?_retag]
  split
  · cases hbody : d.body? r with
    | none => exact .some (Harvest.Retags.refl rfl)
    | some body =>
      have hlifted := hinner (.body r.id) removed body (Document.holds_of_body? hr hbody)
      exact optionRel_map hlifted fun _ _ hinside => (Harvest.Retags.refl rfl).append hinside
  · rw [hfollows.platform]
    exact .some (Harvest.retags_ofUnliftedInner hfollows.isPseudoTag r.id r.blocks)

/-- Lists of slots correspond, and so do the harvests beside them. -/
def SlotsRetag (rename : String → String) (out out' : List Slot × Harvest) : Prop :=
  out'.1 = out.1.map (Slot.retag rename) ∧ Harvest.Retags rename out.2 out'.2

theorem record_retag (hfollows : g.Follows rename other) (hother : other.UsesBuiltIns)
    (hkeeps : ∀ r, d.Holds r → r.Keeps rename other) (hinner : InnerRetags rename d inner inner')
    {r : Record} (hr : d.Holds r) (level : Level) (removed : List String) :
    Option.Rel (SlotsRetag rename) (record other d resolver inner level removed r)
      (record g (d.retag rename) resolver inner' level removed (r.retag rename)) := by
  unfold record
  rw [Record.retag_tag, Record.retag_id, hfollows.isPseudoTag, hfollows.kind?,
    hfollows.platform, decodeRecord_retag resolver hfollows hother (hkeeps r hr)]
  split
  · exact .some ⟨rfl, Harvest.Retags.refl rfl⟩
  next hplain =>
    have hpseudo : other.platform.isPseudoTag r.tag = false := by
      rw [hfollows.platform]
      exact Bool.eq_false_iff.mpr hplain
    have hspec := decodeRecord_spec hother resolver level removed hpseudo
    generalize decodeRecord other resolver level removed r = out at hspec
    split
    · exact .some ⟨rfl, Harvest.Retags.refl rfl⟩
    · refine optionRel_map (bodyHarvest_retag hfollows hinner hr _ out.1) fun h h' hretags => ?_
      refine ⟨?_, (Harvest.Retags.refl hspec.levels).append hretags⟩
      cases out.1 <;> rfl

theorem records_retag (hfollows : g.Follows rename other) (hother : other.UsesBuiltIns)
    (hkeeps : ∀ r, d.Holds r → r.Keeps rename other) (hinner : InnerRetags rename d inner inner')
    (level : Level) {rs : List Record} (hrs : ∀ r ∈ rs, d.Holds r) (removed : List String) :
    Option.Rel (SlotsRetag rename) (records other d resolver inner level removed rs)
      (records g (d.retag rename) resolver inner' level removed
        (rs.map (Record.retag rename))) := by
  induction rs generalizing removed with
  | nil => exact .some ⟨rfl, Harvest.Retags.refl rfl⟩
  | cons r rs ih =>
    obtain ⟨hr, hlater⟩ := List.forall_mem_cons.mp hrs
    refine optionRel_bind (record_retag resolver hfollows hother hkeeps hinner hr level removed) ?_
    rintro ⟨slots, h⟩ ⟨slots', h'⟩ - ⟨rfl, hretags⟩
    show Option.Rel _ _ (records g _ resolver inner' level (removed ++ h'.removed) _ >>= _)
    rw [hretags.removed]
    refine optionRel_bind (ih hlater _) ?_
    rintro ⟨more, rest⟩ ⟨more', rest'⟩ - ⟨rfl, hrest⟩
    exact .some ⟨List.map_append.symm, hretags.append hrest⟩

/-- The levels of both documents are lifted alike. -/
theorem within_retag (hfollows : g.Follows rename other) (hother : other.UsesBuiltIns)
    (hkeeps : ∀ r, d.Holds r → r.Keeps rename other) (n : Nat) :
    InnerRetags rename d (within other d resolver n) (within g (d.retag rename) resolver n) := by
  induction n with
  | zero => exact fun _ _ _ _ => .none
  | succ n ih =>
    intro level removed body hbody
    have hrecords := records_retag resolver hfollows hother hkeeps ih level hbody removed
    rw [← Record.retagAll_eq_map] at hrecords
    refine optionRel_bind hrecords ?_
    rintro ⟨slots, h⟩ ⟨slots', h'⟩ - ⟨rfl, hretags⟩
    refine .some (((Harvest.Retags.refl rfl).append hretags).append ?_)
    exact ⟨rfl, rfl, rfl, rfl, rfl, rfl⟩

theorem root?_retag (hfollows : g.Follows rename other) (hother : other.UsesBuiltIns)
    (hkeeps : ∀ r, d.Holds r → r.Keeps rename other) :
    Option.Rel (Harvest.Retags rename) (root? other d resolver)
      (root? g (d.retag rename) resolver) := by
  rw [root?, root?, Document.depthBound_retag]
  exact within_retag resolver hfollows hother hkeeps _ _ _ _ fun r hr => .root (.here hr)

theorem retags_orphans (hfollows : g.Follows rename other) (used : List String) :
    Harvest.Retags rename (orphans other d used) (orphans g (d.retag rename) used) := by
  have hunused : ((d.retag rename).sections.entries.filter fun entry => !used.contains entry.1) =
      (d.sections.entries.filter fun entry => !used.contains entry.1).map
        fun entry => (entry.1, entry.2.retag rename) := List.filter_map
  rw [orphans, orphans, hunused, hfollows.platform, List.foldr_map]
  induction d.sections.entries.filter fun entry => !used.contains entry.1 with
  | nil => exact Harvest.Retags.refl rfl
  | cons entry rest ih =>
    exact (Harvest.retags_ofUnlifted hfollows.isPseudoTag entry.1 entry.2).append ih

/-- The end nodes of a level are decoded alike. -/
theorem finishSlots_retag (hfollows : g.Follows rename other) (hother : other.UsesBuiltIns)
    (hkeeps : ∀ r, d.Holds r → r.Keeps rename other) (level : Level) {slots : List Slot}
    (hslots : ∀ slot ∈ slots, slot.Held d) (removed : List String) :
    finishSlots g resolver level removed (slots.map (Slot.retag rename)) =
      finishSlots other resolver level removed slots := by
  induction slots generalizing removed with
  | nil => rfl
  | cons slot slots ih =>
    obtain ⟨hslot, hrest⟩ := List.forall_mem_cons.mp hslots
    cases slot with
    | ready n => rw [List.map_cons, Slot.retag, finishSlots, finishSlots, ih hrest]
    | deferred r =>
      simp only [List.map_cons, Slot.retag, finishSlots,
        decodeRecord_retag resolver hfollows hother (hkeeps r hslot), ih hrest]

theorem finishLevels_retag (hfollows : g.Follows rename other) (hother : other.UsesBuiltIns)
    (hkeeps : ∀ r, d.Holds r → r.Keeps rename other) {levels : List (Level × List Slot)}
    (hlevels : ∀ e ∈ levels, ∀ slot ∈ e.2, slot.Held d) (removed : List String) :
    finishLevels g resolver removed (levels.map fun e => (e.1, e.2.map (Slot.retag rename))) =
      finishLevels other resolver removed levels := by
  induction levels generalizing removed with
  | nil => rfl
  | cons e levels ih =>
    obtain ⟨hslots, hrest⟩ := List.forall_mem_cons.mp hlevels
    simp only [List.map_cons, finishLevels,
      finishSlots_retag resolver hfollows hother hkeeps e.1 hslots, ih hrest]

end Lift

namespace Lifted

/-- Lifted documents correspond: they have the same levels, nodes, loop-start nodes and
links. -/
structure Alike (l l' : Lifted) : Prop where
  levels : l'.levels = l.levels
  links : l'.harvest.links = l.harvest.links
  placement : l'.placement = l.placement

/-- Harvests that correspond do so once their end nodes are decoded. -/
theorem alike_of_retags (resolver : Resolver) (hfollows : g.Follows rename other)
    (hother : other.UsesBuiltIns) (hkeeps : ∀ r, d.Holds r → r.Keeps rename other)
    {h h' : Harvest} (hheld : ∀ e ∈ h.levels, ∀ slot ∈ e.2, slot.Held d)
    (hretags : Harvest.Retags rename h h') :
    Alike
      ⟨(Lift.finishLevels other resolver h.removed h.levels).1,
        h ++ (Lift.finishLevels other resolver h.removed h.levels).2⟩
      ⟨(Lift.finishLevels g resolver h'.removed h'.levels).1,
        h' ++ (Lift.finishLevels g resolver h'.removed h'.levels).2⟩ := by
  rw [hretags.removed, hretags.levels,
    Lift.finishLevels_retag resolver hfollows hother hkeeps hheld]
  refine ⟨rfl, ?_, ?_⟩
  · simp only [Harvest.links_append, hretags.links]
  · simp only [placement, Harvest.starts_append, Harvest.placed_append, hretags.starts,
      hretags.placed]

/-- A document is lifted alike under the other names of its tags, or not at all. -/
theorem ofDocument?_retag (hfollows : g.Follows rename other) (hother : other.UsesBuiltIns)
    (hkeeps : ∀ r, d.Holds r → r.Keeps rename other) :
    Option.Rel Alike (ofDocument? other d) (ofDocument? g (d.retag rename)) := by
  unfold ofDocument?
  rw [Survey.resolver?_retag hfollows]
  cases Survey.resolver? other d with
  | none => exact .none
  | some resolver =>
    have hroot := Lift.root?_retag resolver hfollows hother hkeeps
    show Option.Rel _ (Lift.root? other d resolver >>= _)
      (Lift.root? g (d.retag rename) resolver >>= _)
    refine optionRel_bind hroot fun h h' hfound hretags => .some ?_
    have hexplained := Lift.innerExplained_within _ _ _ _ _ (fun r hr => .root (.here hr)) hfound
    have hheld := (hexplained.append (Lift.isExplained_orphans h.usedSections)).slots
    have horphans : Harvest.Retags rename (Lift.orphans other d h.usedSections)
        (Lift.orphans g (d.retag rename) h'.usedSections) := by
      rw [hretags.usedSections]
      exact Lift.retags_orphans hfollows h.usedSections
    exact alike_of_retags resolver hfollows hother hkeeps hheld (hretags.append horphans)

end Lifted

namespace Conversion

/-- Under the other names of the tags, a document is converted to the same graph, or fails the
same way. -/
theorem ofDocument_retag (hfollows : g.Follows rename other) (hother : other.UsesBuiltIns)
    (hblank : ∀ tag, Text.isBlankText (rename tag) = Text.isBlankText tag)
    (hkeeps : ∀ r, d.Holds r → r.Keeps rename other) :
    (ofDocument g (d.retag rename)).map Conversion.graph =
      (ofDocument other d).map Conversion.graph := by
  have hlifted := Lifted.ofDocument?_retag hfollows hother hkeeps
  unfold ofDocument
  rw [Document.check_retag hblank]
  cases d.check with
  | error e => rfl
  | ok _ =>
    generalize Lifted.ofDocument? other d = x at hlifted
    generalize Lifted.ofDocument? g (d.retag rename) = x' at hlifted
    cases hlifted with
    | none => rfl
    | @some l l' halike =>
      have hgraph : (assemble g.platform l').1 = (assemble other.platform l).1 := by
        rw [hfollows.platform]
        simp only [assemble, partition, halike.levels, halike.links, halike.placement]
      simp only [hgraph]
      cases (assemble other.platform l).1.validate <;> rfl

end Conversion

end

end WorkflowGraph
