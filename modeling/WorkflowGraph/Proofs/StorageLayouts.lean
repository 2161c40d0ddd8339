/-
# The two layouts of loop bodies convert alike

Moving a section onto the record of its loop changes where the body is found and nothing
else that a conversion looks at. The survey, the lift and the treatment of what is left
over are followed side by side in both documents. They differ in the sections that the
lift marks as used, which no later step sees.
-/

import WorkflowGraph.Proofs.BodyStorage
import WorkflowGraph.Proofs.CheckedDocuments

namespace WorkflowGraph

namespace Decoder

/-- No decoder of the library looks at the body on a record. -/
theorem decode_builtIn_blocks (kind : NodeKind) (ctx : DecodeContext) (r : Record)
    (blocks : Option Blocks) :
    (builtIn kind).decode ctx { r with blocks := blocks } = (builtIn kind).decode ctx r := by
  cases kind <;> rfl

end Decoder

namespace Registry

variable {g : Registry} {x : String} {body : Blocks} {r : Record}

theorem decode_store (hg : g.UsesBuiltIns) (ctx : DecodeContext) :
    g.decode ctx (Record.store g x body r) = g.decode ctx r := by
  unfold decode decoder
  rw [Record.store_tag]
  cases hd : Table.get? r.tag g.decoders with
  | none => rfl
  | some d =>
      show d.decode ctx (Record.store g x body r) = d.decode ctx r
      rw [hg r.tag d hd]
      exact Decoder.decode_builtIn_blocks d.kind ctx r _

end Registry

namespace Lift

variable {g : Registry} {resolver : Resolver} {x : String} {body : Blocks} {r : Record}

theorem decodeRecord_store (hg : g.UsesBuiltIns) (level : Level) (removed : List String) :
    decodeRecord g resolver level removed (Record.store g x body r) =
      decodeRecord g resolver level removed r := by
  cases level with
  | root =>
      simp only [decodeRecord, Registry.decodeOrPlaceholder, Registry.decode_store hg]
      cases g.decode (context g resolver removed) r <;> rfl
  | body owner =>
      simp only [decodeRecord, Registry.decode_store hg]
      cases g.decode (context g resolver removed) r <;> rfl

end Lift

namespace Document

variable {g : Registry} {d : Document} {x : String} {body : Blocks} {r : Record}

theorem moveSection_of_get? (hsection : Table.get? x d.sections = some body) :
    d.moveSection g x = ⟨Record.storeAll g x body d.records, d.links,
      (Table.erase x d.sections).map (Blocks.storeInside g x body)⟩ := by
  rw [moveSection, hsection]

namespace Movable

variable (hm : d.Movable g x body)
include hm

theorem get?_sections (id : String) :
    Table.get? id (d.moveSection g x).sections =
      if x = id then none else (Table.get? id d.sections).map (Blocks.storeInside g x body) := by
  rw [moveSection_of_get? hm.found, Table.get?_map, Table.get?_erase]
  split <;> rfl

/-- A record finds the same body as before, with its own records stored alike. -/
theorem body?_store (hkind : g.kind? r.tag = some .iteration) :
    (d.moveSection g x).body? (Record.store g x body r) =
      (d.body? r).map (Blocks.storeInside g x body) := by
  unfold body?
  rw [Record.store_blocks, Record.store_id, hm.get?_sections]
  cases hblocks : r.blocks with
  | some b =>
      obtain ⟨records, links⟩ := b
      rw [Blocks.store]
      rfl
  | none =>
      by_cases hid : r.id = x
      · rw [Blocks.store, if_pos ⟨hid, hkind⟩, hid]
        simp [hm.found, Blocks.storeInside_eq_self hm.outside]
      · rw [Blocks.store, if_neg (fun h => hid h.1)]
        simp [Ne.symm hid]

end Movable

end Document

namespace Survey

variable {g : Registry} {d : Document} {x : String} {body : Blocks}

theorem ofRecord_store (hm : d.Movable g x body)
    {inner inner' : String → Blocks → Option (List Resolver.Entry)}
    (hinner : ∀ loop b entries entries', inner loop b = some entries →
      inner' loop (Blocks.storeInside g x body b) = some entries' → entries' = entries)
    {owner : Option String} {r : Record} {entries entries' : List Resolver.Entry}
    (h : ofRecord g d inner owner r = some entries)
    (h' : ofRecord g (d.moveSection g x) inner' owner (Record.store g x body r) = some entries') :
    entries' = entries := by
  unfold ofRecord at h h'
  rw [Record.store_tag, Record.store_id] at h'
  cases hstart : owner.filter fun _ => g.platform.isPseudoTag r.tag with
  | some loop =>
      simp only [hstart] at h h'
      exact Option.some.inj (h'.symm.trans h)
  | none =>
      simp only [hstart] at h h'
      by_cases hkind : g.kind? r.tag = some .iteration
      · rw [if_neg (not_not.mpr hkind)] at h h'
        rw [hm.body?_store hkind] at h'
        cases hbody : d.body? r with
        | none =>
            simp only [hbody, Option.map_none] at h h'
            exact Option.some.inj (h'.symm.trans h)
        | some b =>
            simp only [hbody, Option.map_some] at h h'
            obtain ⟨found, hfound, rfl⟩ := Option.map_eq_some_iff.mp h
            obtain ⟨found', hfound', rfl⟩ := Option.map_eq_some_iff.mp h'
            rw [hinner _ _ _ _ hfound hfound']
            rfl
      · rw [if_pos hkind] at h h'
        exact Option.some.inj (h'.symm.trans h)

theorem ofRecords_store (hm : d.Movable g x body)
    {inner inner' : String → Blocks → Option (List Resolver.Entry)}
    (hinner : ∀ loop b entries entries', inner loop b = some entries →
      inner' loop (Blocks.storeInside g x body b) = some entries' → entries' = entries)
    {owner : Option String} {rs : List Record} :
    ∀ {entries entries' : List Resolver.Entry}, ofRecords g d inner owner rs = some entries →
      ofRecords g (d.moveSection g x) inner' owner (rs.map (Record.store g x body)) =
        some entries' → entries' = entries := by
  induction rs with
  | nil =>
      intro entries entries' h h'
      exact Option.some.inj (h'.symm.trans h)
  | cons r rs ih =>
      intro entries entries' h h'
      obtain ⟨here, rest, hhere, hrest, rfl⟩ := ofRecords_cons_eq_some h
      obtain ⟨here', rest', hhere', hrest', rfl⟩ := ofRecords_cons_eq_some h'
      rw [ofRecord_store hm hinner hhere hhere', ih hrest hrest']

/-- The survey finds the same entries, whatever bounds on the depth the two sides need. -/
theorem within_store (hm : d.Movable g x body) (n : Nat) :
    ∀ m owner rs entries entries', within g d n owner rs = some entries →
      within g (d.moveSection g x) m owner (Record.storeAll g x body rs) = some entries' →
        entries' = entries := by
  induction n with
  | zero =>
      intro m owner rs entries entries' h
      cases h
  | succ n ih =>
      intro m owner rs entries entries' h h'
      cases m with
      | zero => cases h'
      | succ m =>
          rw [within, Record.storeAll_eq_map] at h'
          refine ofRecords_store hm ?_ h h'
          intro loop b found found' hfound hfound'
          exact ih m (some loop) b.records found found' hfound hfound'

theorem resolver?_moveSection (hm : d.Movable g x body) {resolver resolver' : Resolver}
    (h : resolver? g d = some resolver) (h' : resolver? g (d.moveSection g x) = some resolver') :
    resolver' = resolver := by
  obtain ⟨entries, hentries, rfl⟩ := Option.map_eq_some_iff.mp h
  obtain ⟨entries', hentries', rfl⟩ := Option.map_eq_some_iff.mp h'
  have hrecords : (d.moveSection g x).records = Record.storeAll g x body d.records := by
    rw [Document.moveSection_of_get? hm.found]
  rw [hrecords] at hentries'
  rw [within_store hm _ _ _ _ _ _ hentries hentries']

end Survey

namespace Lift

variable {g : Registry} {d : Document} {x : String} {body : Blocks} {r : Record}

/-- The section of the moved body is no longer lifted with its loop. -/
theorem usedSection_store (hm : d.Movable g x body) (hkind : g.kind? r.tag = some .iteration) :
    usedSection (d.moveSection g x) (Record.store g x body r) =
      (usedSection d r).filter fun id => id != x := by
  unfold usedSection
  rw [Record.store_blocks, Record.store_id, Table.hasKey_eq_isSome_get?,
    Table.hasKey_eq_isSome_get?, hm.get?_sections]
  cases hblocks : r.blocks with
  | some b =>
      obtain ⟨records, links⟩ := b
      rw [Blocks.store]
      rfl
  | none =>
      by_cases hid : r.id = x
      · have hstored : Blocks.store g x body r.id r.tag none = some body := by
          rw [Blocks.store, if_pos ⟨hid, hkind⟩]
        rw [hstored]
        simp [hid]
      · have hstored : Blocks.store g x body r.id r.tag none = none := by
          rw [Blocks.store, if_neg fun h => hid h.1]
        cases hsection : Table.get? r.id d.sections <;> simp [hstored, hid, Ne.symm hid]

end Lift

namespace Document

variable {g : Registry} {d : Document} {x : String} {body : Blocks}

/-- A chain of loops in the changed document is one in the original document, where it
may use one more section. -/
theorem Movable.exists_chain (hm : d.Movable g x body) {used' : List String}
    {rs' : List Record} (hchain : (d.moveSection g x).Chain g used' rs') :
    ∃ used rs, d.Chain g used rs ∧ rs' = Record.storeAll g x body rs ∧ used'.Sublist used := by
  induction hchain with
  | root =>
      refine ⟨[], d.records, .root, ?_, .refl _⟩
      rw [moveSection_of_get? hm.found]
  | @inside used' rs' r' body' _ hr' hkind hbody ih =>
      obtain ⟨used, rs, hchain, rfl, hsub⟩ := ih
      rw [Record.storeAll_eq_map] at hr'
      obtain ⟨r, hr, rfl⟩ := List.mem_map.mp hr'
      have hsame : g.kind? r.tag = some .iteration := hkind
      rw [hm.body?_store hsame] at hbody
      obtain ⟨b, hb, rfl⟩ := Option.map_eq_some_iff.mp hbody
      refine ⟨_, _, hchain.inside hr hsame hb, rfl, ?_⟩
      rw [Lift.usedSection_store hm hsame]
      exact List.filter_sublist.append hsub

theorem Movable.sectionsAcyclic (hm : d.Movable g x body) (hacyclic : d.SectionsAcyclic g) :
    (d.moveSection g x).SectionsAcyclic g := by
  intro used' rs' hchain'
  obtain ⟨used, rs, hchain, -, hsub⟩ := hm.exists_chain hchain'
  exact hsub.nodup (hacyclic used rs hchain)

end Document

namespace Harvest

/-- The same harvest without the mark that a section was lifted. -/
def forget (x : String) (h : Harvest) : Harvest :=
  { h with usedSections := h.usedSections.filter fun id => id != x }

theorem forget_append (x : String) (a b : Harvest) :
    (a ++ b).forget x = a.forget x ++ b.forget x := by
  show _ = append (a.forget x) (b.forget x)
  simp only [forget, append, usedSections_append, List.filter_append]
  rfl

theorem forget_of_usedSections_eq_nil (x : String) {h : Harvest} (hnone : h.usedSections = []) :
    h.forget x = h := by
  rw [forget, hnone]
  obtain ⟨levels, links, placed, starts, removed, usedSections, report⟩ := h
  obtain rfl : usedSections = [] := hnone
  rfl

end Harvest

namespace Lift

variable {g : Registry} {d : Document} {resolver : Resolver} {x : String} {body : Blocks}
  {inner inner' : Level → List String → Blocks → Option Harvest}

/-- Two ways to lift bodies that agree, up to the mark of a section, on a body before and
after the move. -/
def Alike (g : Registry) (x : String) (body : Blocks)
    (inner inner' : Level → List String → Blocks → Option Harvest) : Prop :=
  ∀ level removed b h h', Record.Clear g x b.records → inner level removed b = some h →
    inner' level removed (Blocks.storeInside g x body b) = some h' → h' = h.forget x

theorem bodyHarvest_store (hg : g.UsesBuiltIns) (hm : d.Movable g x body)
    (hinner : Alike g x body inner inner') {level : Level} {removed : List String} {r : Record}
    {out : Option Node × Harvest} (hspec : DecodeSpec g level r out)
    (hplain : g.isLoop r = false → x ∉ Record.iterationIds g [r])
    (hbody : ∀ b, g.isLoop r = true → d.body? r = some b → Record.Clear g x b.records)
    {h h' : Harvest} (hh : bodyHarvest g d inner removed r out.1 = some h)
    (hh' : bodyHarvest g (d.moveSection g x) inner' removed (Record.store g x body r) out.1 =
      some h') : h' = h.forget x := by
  unfold bodyHarvest at hh hh'
  cases hloop : g.isLoop r with
  | true =>
      have hkind := Registry.kind?_of_isLoop hg hloop
      rw [if_pos ((hspec.kind_iff hg).mpr hloop), usedSection_store hm hkind,
        hm.body?_store hkind] at hh'
      rw [if_pos ((hspec.kind_iff hg).mpr hloop)] at hh
      cases hlocated : d.body? r with
      | none =>
          simp only [hlocated, Option.map_none] at hh hh'
          rw [← Option.some.inj hh, ← Option.some.inj hh']
          rfl
      | some b =>
          simp only [hlocated, Option.map_some] at hh hh'
          obtain ⟨found, hfound, rfl⟩ := Option.map_eq_some_iff.mp hh
          obtain ⟨found', hfound', rfl⟩ := Option.map_eq_some_iff.mp hh'
          rw [hinner _ _ b found found' (hbody b hloop hlocated) hfound hfound',
            Harvest.forget_append]
          rfl
  | false =>
      have hkind : ¬ out.1.map Node.kind = some .iteration := by
        rw [hspec.kind_iff hg, hloop]
        nofun
      rw [Record.store_eq_self (hplain hloop), if_neg hkind] at hh'
      rw [if_neg hkind] at hh
      rw [← Option.some.inj hh, ← Option.some.inj hh']
      have hidle := Harvest.isIdle_ofUnliftedInner g.platform r.id r.blocks
      rw [Harvest.forget_of_usedSections_eq_nil x hidle.usedSections]

theorem record_store (hg : g.UsesBuiltIns) (hm : d.Movable g x body)
    (hinner : Alike g x body inner inner') {level : Level} {removed : List String} {r : Record}
    (hplain : g.isLoop r = false → x ∉ Record.iterationIds g [r])
    (hbody : ∀ b, g.isLoop r = true → d.body? r = some b → Record.Clear g x b.records)
    {out out' : List Slot × Harvest} (ho : record g d resolver inner level removed r = some out)
    (ho' : record g (d.moveSection g x) resolver inner' level removed (Record.store g x body r) =
      some out') : out' = (out.1, out.2.forget x) := by
  unfold record at ho ho'
  rw [Record.store_tag, Record.store_id, decodeRecord_store hg] at ho'
  cases hpseudo : g.platform.isPseudoTag r.tag with
  | true =>
      rw [if_pos hpseudo] at ho ho'
      rw [← Option.some.inj ho, ← Option.some.inj ho']
      rfl
  | false =>
      rw [if_neg (Bool.eq_false_iff.mp hpseudo)] at ho ho'
      by_cases hfinish : g.kind? r.tag = some .finish
      · have hloop : g.isLoop r = false := by
          refine Bool.eq_false_iff.mpr fun hloop => ?_
          cases hfinish.symm.trans (Registry.kind?_of_isLoop hg hloop)
        rw [Record.store_eq_self (hplain hloop), if_pos hfinish] at ho'
        rw [if_pos hfinish] at ho
        rw [← Option.some.inj ho, ← Option.some.inj ho']
        rfl
      · rw [if_neg hfinish] at ho ho'
        have hspec := decodeRecord_spec hg resolver level removed hpseudo
        generalize decodeRecord g resolver level removed r = decoded at ho ho' hspec
        obtain ⟨h, hh, rfl⟩ := Option.map_eq_some_iff.mp ho
        obtain ⟨h', hh', rfl⟩ := Option.map_eq_some_iff.mp ho'
        rw [bodyHarvest_store hg hm hinner hspec hplain hbody hh hh', Harvest.forget_append,
          Harvest.forget_of_usedSections_eq_nil x hspec.usedSections]

theorem records_store (hg : g.UsesBuiltIns) (hm : d.Movable g x body)
    (hinner : Alike g x body inner inner') {level : Level} {rs : List Record}
    (hplain : ∀ r ∈ rs, g.isLoop r = false → x ∉ Record.iterationIds g [r])
    (hbody : ∀ r ∈ rs, ∀ b, g.isLoop r = true → d.body? r = some b →
      Record.Clear g x b.records) :
    ∀ {removed : List String} {out out' : List Slot × Harvest},
      records g d resolver inner level removed rs = some out →
        records g (d.moveSection g x) resolver inner' level removed
          (rs.map (Record.store g x body)) = some out' →
            out' = (out.1, out.2.forget x) := by
  induction rs with
  | nil =>
      intro removed out out' ho ho'
      rw [← Option.some.inj ho, ← Option.some.inj ho']
      rfl
  | cons r rs ih =>
      rintro removed ⟨_, _⟩ ⟨_, _⟩ ho ho'
      obtain ⟨hplainHere, hplainRest⟩ := List.forall_mem_cons.mp hplain
      obtain ⟨hbodyHere, hbodyRest⟩ := List.forall_mem_cons.mp hbody
      obtain ⟨slots, h, more, rest, hhere, hrest, rfl, rfl⟩ := records_cons_eq_some ho
      obtain ⟨slots', h', more', rest', hhere', hrest', rfl, rfl⟩ := records_cons_eq_some ho'
      obtain ⟨rfl, rfl⟩ := Prod.mk.inj
        (record_store hg hm hinner hplainHere hbodyHere hhere hhere')
      obtain ⟨rfl, rfl⟩ := Prod.mk.inj (ih hplainRest hbodyRest hrest hrest')
      rw [Harvest.forget_append]

/-- The lift yields the same, up to the mark of the section, whatever bounds on the depth
the two sides need. -/
theorem within_store (hg : g.UsesBuiltIns) (hm : d.Movable g x body) (n : Nat) :
    ∀ m, Alike g x body (within g d resolver n) (within g (d.moveSection g x) resolver m) := by
  induction n with
  | zero =>
      intro m level removed b h h' _ hh
      cases hh
  | succ n ih =>
      intro m level removed b h h' hclear hh hh'
      cases m with
      | zero => cases hh'
      | succ m =>
          obtain ⟨slots, found, hfound, rfl⟩ := within_succ_eq_some hh
          obtain ⟨slots', found', hfound', rfl⟩ := within_succ_eq_some hh'
          obtain ⟨hplain, hstored⟩ := hclear
          have hbody : ∀ r ∈ b.records, ∀ c, g.isLoop r = true → d.body? r = some c →
              Record.Clear g x c.records := by
            intro r hr c hloop hc
            cases hblocks : r.blocks with
            | some own =>
                obtain rfl : own = c := by simpa [Document.body?, hblocks] using hc
                exact hstored r hr own hloop hblocks
            | none =>
                have hsection : Table.get? r.id d.sections = some c := by
                  simpa [Document.body?, hblocks] using hc
                exact hm.sections _ (Table.mem_of_get?_eq_some hsection)
          have hrecords : (Blocks.storeInside g x body b).records =
              b.records.map (Record.store g x body) := Record.storeAll_eq_map
          rw [hrecords] at hfound'
          obtain ⟨rfl, rfl⟩ := Prod.mk.inj
            (records_store hg hm (ih m) hplain hbody hfound hfound')
          simp only [Harvest.forget_append]
          rfl

theorem root?_moveSection (hg : g.UsesBuiltIns) (hm : d.Movable g x body) {h h' : Harvest}
    (hh : root? g d resolver = some h)
    (hh' : root? g (d.moveSection g x) resolver = some h') : h' = h.forget x := by
  have hbody : Blocks.storeInside g x body ⟨d.records, d.links⟩ =
      ⟨(d.moveSection g x).records, (d.moveSection g x).links⟩ := by
    rw [Document.moveSection_of_get? hm.found]
    rfl
  refine within_store hg hm d.depthBound (d.moveSection g x).depthBound .root []
    ⟨d.records, d.links⟩ h h' hm.records hh ?_
  rw [hbody]
  exact hh'

end Lift

/-! ## Sections that are lifted, and those that are not -/

namespace Lift

variable {g : Registry} {d : Document} {resolver : Resolver} {x : String} {body : Blocks}

theorem usedSection_subset_openedSections {rs : List Record} {t : Nested Record}
    (ht : d.Unrolls g rs t) {r : Record} (hr : r ∈ rs) {b : Blocks}
    (hopen : d.opened? g r = some b) : usedSection d r ⊆ openedSections d t := by
  induction ht with
  | nil => cases hr
  | leaf hclosed _ ih =>
      rcases List.mem_cons.mp hr with rfl | hlater
      · cases hclosed.symm.trans hopen
      · exact ih hlater
  | loop _ _ _ _ ihRest =>
      intro id hid
      rcases List.mem_cons.mp hr with rfl | hlater
      · exact List.mem_append_left _ (List.mem_append_left _ hid)
      · exact List.mem_append_right _ (ihRest hlater hid)

theorem openedSections_subset_of_mem_bodies {t : Nested Record} {e : Level × Nested Record}
    (he : e ∈ t.bodies Record.id) : openedSections d e.2 ⊆ openedSections d t := by
  induction t with
  | nil => cases he
  | leaf r rest ih => exact ih he
  | loop r inner rest ihInner ihRest =>
      intro id hid
      rw [openedSections, List.append_assoc]
      apply List.mem_append_right
      simp only [Nested.bodies, List.mem_append, List.mem_cons] at he
      rcases he with hinner | rfl | hrest
      · exact List.mem_append_left _ (ihInner hinner hid)
      · exact List.mem_append_left _ hid
      · exact List.mem_append_right _ (ihRest hrest hid)

/-- The lift marks every section that a loop opens. -/
theorem mem_usedSections_of_opens (hg : g.UsesBuiltIns) {h : Harvest}
    (hroot : root? g d resolver = some h) {e : String × Blocks} (hopens : d.Opens g e) :
    e.1 ∈ h.usedSections := by
  obtain ⟨t, s, inside, hunrolls, -, hreaps, rfl⟩ := within_lifts hg _ _ _ _ _ hroot
  obtain ⟨level, rs, hlist, r, hr, hloop, hblocks, hid, hsection⟩ := hopens
  obtain ⟨u, hmem, hu⟩ := hunrolls.exists_of_lists hlist
  have hopen : d.opened? g r = some e.2 := by
    refine Document.opened?_eq_some_iff.mpr ⟨hloop, ?_⟩
    simp [Document.body?, hblocks, hid, hsection]
  have hused : e.1 ∈ usedSection d r := by
    simp [usedSection, hblocks, hid, Table.hasKey_eq_isSome_get?, hsection]
  have hsub : openedSections d u ⊆ openedSections d t := by
    rcases List.mem_append.mp hmem with hin | hhere
    · exact openedSections_subset_of_mem_bodies hin
    · obtain ⟨-, rfl⟩ := Prod.mk.inj (List.mem_singleton.mp hhere)
      exact fun _ hid => hid
  have hopened := hsub (usedSection_subset_openedSections hu hr hopen hused)
  simpa [hreaps.usedSections, Harvest.ofLinks, Harvest.ofLevel, Harvest.empty] using hopened

/-- What is left over is the same: the moved section was lifted, and the move changes no
section that was not. -/
theorem orphans_moveSection (hm : d.Movable g x body) {used : List String} (hx : x ∈ used)
    (hopens : ∀ e ∈ d.sections.entries, d.Opens g e → e.1 ∈ used) :
    orphans g (d.moveSection g x) (used.filter fun id => id != x) = orphans g d used := by
  have hkept : ∀ e ∈ d.sections.entries, e.1 ∉ used →
      (e.1, Blocks.storeInside g x body e.2) = e := by
    intro e he hunused
    rw [Blocks.storeInside_eq_self fun hx' => hunused (hopens e he (hm.opens e he hx'))]
  have hleft : ∀ e ∈ d.sections.entries,
      (!(used.filter fun id => id != x).contains e.1 && e.1 != x) = !used.contains e.1 := by
    intro e _
    by_cases hid : e.1 = x
    · simp [hid, hx]
    · simp [hid]
  have hsame :=
    calc ((Table.erase x d.sections).entries.map fun e =>
          (e.1, Blocks.storeInside g x body e.2)).filter (fun e =>
            !(used.filter fun id => id != x).contains e.1)
      _ = ((Table.erase x d.sections).entries.filter fun e =>
            !(used.filter fun id => id != x).contains e.1).map fun e =>
              (e.1, Blocks.storeInside g x body e.2) := List.filter_map
      _ = (d.sections.entries.filter fun e => !used.contains e.1).map fun e =>
            (e.1, Blocks.storeInside g x body e.2) := by
          rw [Table.entries_erase, List.filter_filter, List.filter_congr hleft]
      _ = d.sections.entries.filter fun e => !used.contains e.1 := by
          refine (List.map_congr_left fun e he => ?_).trans (List.map_id _)
          obtain ⟨hin, hunused⟩ := List.mem_filter.mp he
          exact hkept e hin (by simpa using hunused)
  unfold orphans
  rw [Document.moveSection_of_get? hm.found]
  exact congrArg (List.foldr _ _) hsame

end Lift

/-! ## Whole conversions -/

section
variable {g : Registry} {x : String} {body : Blocks}

mutual

theorem Record.checkAll_storeAll (hbody : Record.checkAll 0 body.records = .ok ()) :
    (rs : List Record) → ∀ {index : Nat}, Record.checkAll index rs = .ok () →
      Record.checkAll index (Record.storeAll g x body rs) = .ok ()
  | [], _, _ => by rw [Record.storeAll, Record.checkAll]
  | ⟨id, tag, title, params, inputs, outputs, blocks, presentation⟩ :: rs, index, hok => by
      obtain ⟨hpasses, hrest⟩ := Record.checkAll_cons_eq_ok_iff.mp hok
      rw [Record.storeAll]
      refine Record.checkAll_cons_eq_ok_iff.mpr ⟨⟨hpasses.id, hpasses.tag, ?_⟩, ?_⟩
      · exact Blocks.checkOption_store hbody id tag blocks hpasses.blocks
      · exact Record.checkAll_storeAll hbody rs hrest

theorem Blocks.checkOption_store (hbody : Record.checkAll 0 body.records = .ok ())
    (id tag : String) : (blocks : Option Blocks) → Blocks.checkOption blocks = .ok () →
      Blocks.checkOption (Blocks.store g x body id tag blocks) = .ok ()
  | none, _ => by
      rw [Blocks.store]
      split
      · obtain ⟨records, links⟩ := body
        rw [Blocks.checkOption]
        exact hbody
      · rw [Blocks.checkOption]
  | some ⟨records, links⟩, hok => by
      rw [Blocks.checkOption] at hok
      rw [Blocks.store, Blocks.checkOption]
      exact Record.checkAll_storeAll hbody records hok

end

end

namespace Document

variable {g : Registry} {d : Document} {x : String} {body : Blocks}

theorem Movable.check_moveSection (hm : d.Movable g x body) (hcheck : d.check = .ok ()) :
    (d.moveSection g x).check = .ok () := by
  obtain ⟨hrecords, hsections⟩ := check_eq_ok_iff.mp hcheck
  have hbody : Record.checkAll 0 body.records = .ok () :=
    hsections _ (Table.mem_of_get?_eq_some hm.found)
  rw [moveSection_of_get? hm.found]
  refine check_eq_ok_iff.mpr ⟨Record.checkAll_storeAll hbody _ hrecords, fun e he => ?_⟩
  obtain ⟨old, hold, rfl⟩ := List.mem_map.mp he
  exact Record.checkAll_storeAll hbody _ (hsections old (List.mem_filter.mp hold).1)

end Document

namespace Lifted

variable {g : Registry} {d : Document} {x : String} {body : Blocks}

/-- Both documents are lifted to the same levels, with the same harvest up to the sections
that count as lifted. -/
theorem ofDocument?_moveSection (hg : g.UsesBuiltIns) (hacyclic : d.SectionsAcyclic g)
    (hm : d.Movable g x body) : ∃ l used, ofDocument? g d = some l ∧
      ofDocument? g (d.moveSection g x) =
        some ⟨l.levels, { l.harvest with usedSections := used }⟩ := by
  have hacyclic' := hm.sectionsAcyclic hacyclic
  obtain ⟨resolver, hresolver⟩ := Option.isSome_iff_exists.mp (Survey.isSome_resolver? hacyclic)
  obtain ⟨resolver', hresolver'⟩ :=
    Option.isSome_iff_exists.mp (Survey.isSome_resolver? hacyclic')
  obtain rfl := Survey.resolver?_moveSection hm hresolver hresolver'
  obtain ⟨h, hroot⟩ := Option.isSome_iff_exists.mp (Lift.isSome_root? hg hacyclic resolver')
  obtain ⟨h', hroot'⟩ := Option.isSome_iff_exists.mp (Lift.isSome_root? hg hacyclic' resolver')
  obtain rfl := Lift.root?_moveSection hg hm hroot hroot'
  have hopens : ∀ e ∈ d.sections.entries, d.Opens g e → e.1 ∈ h.usedSections :=
    fun e _ he => Lift.mem_usedSections_of_opens hg hroot he
  have hx : x ∈ h.usedSections := Lift.mem_usedSections_of_opens hg hroot hm.lifted
  have horphans := Lift.orphans_moveSection hm hx hopens
  simp only [ofDocument?, hresolver, hroot, hresolver', hroot', Option.bind_eq_bind,
    Option.bind_some]
  have hused : (h.forget x).usedSections = h.usedSections.filter fun id => id != x := rfl
  rw [hused, horphans]
  exact ⟨_, _, rfl, rfl⟩

end Lifted

namespace Conversion

variable {p : Platform} {g : Registry} {d : Document}

/-- What a section holds may as well be stored on the loop that opens it: the conversion
gives the same graph with the same report, or fails the same way. The loop may stand
anywhere, in a body of either layout, as long as it is lifted. -/
theorem ofDocument_moveSection (hg : Registry.Derived p g) (hcheck : d.check = .ok ())
    (hacyclic : d.SectionsAcyclic g) (hids : (d.iterationIds g).Nodup) {level : Level}
    {rs : List Record} (hlist : d.Lists g level rs) {r : Record} (hr : r ∈ rs)
    (hloop : g.isLoop r = true) (hblocks : r.blocks = none) {body : Blocks}
    (hsection : Table.get? r.id d.sections = some body) :
    ofDocument g (d.moveSection g r.id) = ofDocument g d := by
  have hbuiltIns := hg.usesBuiltIns
  have hm := Document.movable_of_lists hbuiltIns hids hlist hr hloop hblocks hsection
  obtain ⟨l, used, hlifted, hmoved⟩ := Lifted.ofDocument?_moveSection hbuiltIns hacyclic hm
  unfold ofDocument
  rw [hcheck, hm.check_moveSection hcheck, hlifted, hmoved]
  rfl

/-- The inner loop stands in a body that is stored on the outer loop, and has a section. -/
theorem ofDocument_moveSection_nestedLoops :
    Registry.Derived .coze (.withDefaults .coze) ∧ Document.nestedLoops.check = .ok () ∧
      Document.nestedLoops.SectionsAcyclic (.withDefaults .coze) ∧
        (Document.nestedLoops.iterationIds (.withDefaults .coze)).Nodup ∧
          ofDocument (.withDefaults .coze)
              (Document.nestedLoops.moveSection (.withDefaults .coze) "inner") =
            ofDocument (.withDefaults .coze) Document.nestedLoops := by
  have hcheck : Document.nestedLoops.check = .ok () := by decide +kernel
  have hacyclic : Document.nestedLoops.SectionsAcyclic (.withDefaults .coze) :=
    Document.sectionsAcyclic_of_plain (by decide +kernel)
  have hids : (Document.nestedLoops.iterationIds (.withDefaults .coze)).Nodup := by
    decide +kernel
  have hopen : Document.nestedLoops.opened? (.withDefaults .coze)
      Document.nestedLoops.records[1] =
        some ⟨[.bare "step" "5", .bare "inner" "21", .bare "odd" "unknown"],
          [⟨"", "step", none, "inner", none⟩, ⟨"", "step", none, "odd", none⟩]⟩ := rfl
  have hlist := Document.Lists.body .root (List.getElem_mem _) hopen
  have hinner : Record.bare "inner" "21" ∈
      [Record.bare "step" "5", .bare "inner" "21", .bare "odd" "unknown"] :=
    List.mem_cons_of_mem _ List.mem_cons_self
  exact ⟨.defaults, hcheck, hacyclic, hids,
    ofDocument_moveSection .defaults hcheck hacyclic hids hlist hinner (by decide +kernel) rfl rfl⟩

-- Afterwards the section is gone and the inner loop stores the body itself.
example : (Document.nestedLoops.moveSection (.withDefaults .coze) "inner").sections.entries = [] ∧
    (Document.nestedLoops.moveSection (.withDefaults .coze) "inner").iterationIds
      (.withDefaults .coze) = ["outer", "inner"] ∧
    (Document.nestedLoops.moveSection (.withDefaults .coze) "inner").inlineDepth = 2 := by
  decide +kernel

end Conversion

end WorkflowGraph
