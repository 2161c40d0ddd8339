/-
# The inputs that end nodes keep

An end node leaves out the inputs that it takes from removed nodes. What is removed is
settled before any end node is decoded, but for the end nodes that fail themselves: one on
the root becomes a placeholder, and the end nodes decoded before it keep their inputs from
it. So an end node keeps an input exactly if the producer is in the graph, and is no
placeholder or the placeholder of an end node that is decoded later. Producers that are
loop-start records or dropped blocks are never kept, in whatever order the records stand.
-/

import WorkflowGraph.Proofs.CarriedPointers
import WorkflowGraph.Proofs.EndOrder
import WorkflowGraph.Proofs.ReportedRecords

namespace WorkflowGraph

/-- A record that decodes keeps its id and has the face of its node. -/
theorem Registry.face?_of_decode {g : Registry} (hg : g.UsesBuiltIns) {ctx : DecodeContext}
    {r : Record} {n : Node} (hdecode : g.decode ctx r = .ok n) :
    g.face? r = some n.face ∧ n.id = r.id := by
  cases hface : g.face? r with
  | none =>
    obtain ⟨e, hfails⟩ := decode_of_face?_eq_none hg hface
    cases (hfails ctx).symm.trans hdecode
  | some face =>
    obtain ⟨hid, -, hdecodes⟩ := decode_of_face?_eq_some hg hface
    obtain ⟨m, hm, rfl, -⟩ := hdecodes ctx
    obtain rfl := Except.ok.inj (hdecode.symm.trans hm)
    exact ⟨rfl, hid⟩

/-- A decoder for end nodes leaves out the inputs from removed nodes. -/
theorem Registry.inputs_of_decode {g : Registry} (hg : g.UsesBuiltIns) {resolver : Resolver}
    {removed : List String} {r : Record} {n : Node} (hkind : n.kind = .finish)
    (hdecode : g.decode (Lift.context g resolver removed) r = .ok n) :
    n.inputs = (r.inputs.map (Lift.context g resolver []).input).filter
      (Input.avoids removed) := by
  rcases decode_cases hg r with ⟨e, hfails⟩ | ⟨face, -, htag, hdecodes⟩
  · cases (hfails _).symm.trans hdecode
  · obtain ⟨m, hm, hface, -⟩ := hdecodes (Lift.context g resolver removed)
    obtain rfl := Except.ok.inj (hdecode.symm.trans hm)
    have hfinish : g.kind? r.tag = some .finish := by
      rw [htag, ← hface]
      exact congrArg some hkind
    obtain ⟨decoder, hdecoder, hannounced⟩ := Option.map_eq_some_iff.mp hfinish
    have hbuiltIn := hg r.tag decoder hdecoder
    rw [hannounced] at hbuiltIn
    have hrun : Decoder.decodeFinish (Lift.context g resolver removed) r = .ok n := by
      rw [← hdecode, decode, Registry.decoder, hdecoder, hbuiltIn]
      rfl
    unfold Decoder.decodeFinish at hrun
    cases hread : Params.read Params.finish r with
    | error e =>
      rw [hread] at hrun
      cases hrun
    | ok answer =>
      rw [hread] at hrun
      obtain rfl := Except.ok.inj hrun
      rfl

namespace Document

variable {g : Registry} {d : Document} {t : Nested Record}

/-- What is removed has different ids if no two records share one. -/
theorem DistinctIds.nodup_removed (hg : g.UsesBuiltIns)
    (hids : d.DistinctIds) (ht : d.Unrolls g d.records t) :
    ((d.removedRecords g t).map Record.id).Nodup := by
  have hperm := (allRecords_perm hg ht (hids.idsApart hg t ht)).map Record.id
  have hall := hperm.nodup_iff.mp hids
  refine List.Sublist.nodup (List.Sublist.map Record.id ?_) hall
  exact List.filter_sublist.append (List.sublist_append_left _ _)

/-- A record that survives is removed exactly if it is replaced by a placeholder. -/
theorem Survives.mem_removed_iff (hg : g.UsesBuiltIns)
    (hids : d.DistinctIds) (ht : d.Unrolls g d.records t) {r : Record} (hr : Survives g t r) :
    r ∈ d.removedRecords g t ↔ r ∈ replacedRecords g t := by
  have hmember := hr.mem_members
  have hout := ((hids.apart hg ht).1 hmember).1
  obtain ⟨place, hlies, hsome⟩ := hr
  have hremoved : r ∈ d.removedRecords g t ↔ isGone g r = true := by
    rw [removedRecords, List.mem_append, ← standsIn_iff, List.mem_filter]
    simp [hmember, hout]
  have hreplaced : r ∈ replacedRecords g t ↔ isReplaced g (place, r) = true :=
    hlies.mem_picked_iff (hids.idsApart hg t ht) (isReplaced g)
  rw [hremoved, hreplaced, isGone, isReplaced]
  unfold Registry.survivor? at hsome
  cases hpseudo : g.platform.isPseudoTag r.tag with
  | true => simp [hpseudo] at hsome
  | false =>
    cases hface : g.face? r with
    | some face => simp
    | none =>
      have hroot : place = .root := by
        by_contra hbody
        simp [hpseudo, hface, hbody] at hsome
      simp [hroot]

/-- A placeholder takes the place of a record of the nesting that cannot be decoded. -/
theorem of_mem_replaced {r : Record} (hr : r ∈ replacedRecords g t) :
    r ∈ t.members ∧ g.face? r = none := by
  obtain ⟨e, hkept, rfl⟩ := List.mem_map.mp hr
  obtain ⟨hlocated, hshown⟩ := List.mem_filter.mp hkept
  have hnone := (Bool.and_eq_true_iff.mp hshown).2
  exact ⟨Nested.mem_members_of_mem_located hlocated, by simpa using hnone⟩

theorem removedRecords_subset (ht : d.Unrolls g d.records t) :
    d.removedRecords g t ⊆ d.allRecords := by
  intro r hr
  rcases List.mem_append.mp hr with hmember | hdropped
  · obtain ⟨list, hlist, hin⟩ := ht.exists_mem_lists (List.mem_of_mem_filter hmember)
    exact List.mem_flatMap.mpr ⟨list, hlist, hin⟩
  · obtain ⟨body, hbody, hin⟩ := List.mem_flatMap.mp hdropped
    have hlist := List.mem_map_of_mem (f := fun entry : String × Blocks =>
      (Level.body entry.1, entry.2)) (ht.droppedBodies_subset hbody)
    exact List.mem_flatMap.mpr ⟨_, List.mem_cons_of_mem _ hlist, hin⟩

/-- The records that wait are records of the nesting. -/
theorem mem_members_of_mem_ends {e : Level × Record} (he : e ∈ ends g t) : e.2 ∈ t.members := by
  obtain ⟨list, hlist, hin⟩ := List.mem_flatMap.mp he
  obtain ⟨r, hr, rfl⟩ := List.mem_map.mp hin
  have hroots := List.mem_of_mem_filter hr
  refine (t.levels_perm_members Record.id .root).subset ?_
  exact List.mem_flatMap.mpr ⟨list, hlist, hroots⟩

/-- End nodes that take inputs from a code node, from a placeholder, and from an end node that
fails and is decoded in between. -/
def endsInTurn : Document :=
  let takes (producer : String) : RecordInput := ⟨producer, none, .pointer ⟨producer, "x"⟩⟩
  let inputs := [takes "step", takes "odd", takes "middle"]
  ⟨[.bare "step" "5", .bare "odd" "unknown", { Record.bare "first" "2" with inputs := inputs },
    { Record.bare "middle" "2" with params := [("answer", .bool true)] },
    { Record.bare "last" "2" with inputs := inputs }],
   [], ∅⟩

/-- An end node that takes an input from a later one that cannot be decoded. -/
def endBeforeFailing : Document :=
  ⟨[{ Record.bare "early" "2" with inputs := [⟨"v", none, .pointer ⟨"late", "x"⟩⟩] },
    { Record.bare "late" "2" with params := [("answer", .bool true)] }],
   [], ∅⟩

end Document

namespace Conversion

open Assembly Dangling

variable {p : Platform} {g : Registry} {d : Document} {l : Lifted} {t : Nested Record}
  {f : Nested Node} {resolver : Resolver}

/-- The nodes of a nesting stand in the levels of the lifted document. -/
theorem Rebuilt.exists_mem_levels (hrebuilt : Rebuilt g d l t f) {own : Node}
    (hown : own ∈ f.members) : ∃ e ∈ l.levels, own ∈ e.2 := by
  have hlisted := (f.levels_perm_members Node.id .root).symm.subset hown
  obtain ⟨e, he, hin⟩ := List.mem_flatMap.mp hlisted
  refine ⟨(e.1, e.2.roots), ?_, hin⟩
  rw [hrebuilt.mirrors.levels]
  exact List.mem_map_of_mem (f := fun e : Level × Nested Node => (e.1, e.2.roots)) he

/-- A node of a rebuilt graph is a lifted node without the inputs from absent producers. -/
theorem Rebuilt.exists_lifted (hg : g.UsesBuiltIns) (hrebuilt : Rebuilt g d l t f)
    (hdecodes : Lift.Decodes g resolver .root t f) {n : Node}
    (hn : n ∈ (assemble g.platform l).1.walk) :
    ∃ e ∈ l.levels, ∃ own ∈ e.2, own.id = n.id ∧ own.kind = n.kind ∧
      n.inputs = own.inputs.filter (keepsInput (presentIds l.levels)) := by
  obtain ⟨_, _, _, own, hown, -, hfinishes⟩ := hrebuilt.exists_finishes hg hdecodes hn
  obtain ⟨e, he, hin⟩ := hrebuilt.exists_mem_levels hown
  exact ⟨e, he, own, hin, hfinishes.id_eq.symm, hfinishes.kind_eq.symm, hfinishes.inputs_eq⟩

/-- An id of a surviving record is removed exactly if the record is replaced. -/
theorem mem_removed_iff (hg : g.UsesBuiltIns) (hids : d.DistinctIds)
    (ht : d.Unrolls g d.records t) (hlifted : Lifted.ofDocument? g d = some l) {r : Record}
    (hr : Document.Survives g t r) :
    r.id ∈ l.harvest.removed ↔ r ∈ Document.replacedRecords g t := by
  have hin := Document.members_subset hg ht (hids.idsApart hg t ht) hr.mem_members
  rw [(Lifted.ofDocument?_removed hg hlifted ht).mem_iff, ← hr.mem_removed_iff hg hids ht]
  exact hids.key_mem_map_iff (Document.removedRecords_subset ht) (fun _ _ hid => hid) hin

theorem mem_placeholders_iff (hg : g.UsesBuiltIns) (hids : d.DistinctIds)
    (ht : d.Unrolls g d.records t) (hlifted : Lifted.ofDocument? g d = some l) {r : Record}
    (hr : r ∈ d.allRecords) :
    r.id ∈ l.harvest.report.placeholders ↔ r ∈ Document.replacedRecords g t := by
  have hmembers := Document.members_subset hg ht (hids.idsApart hg t ht)
  rw [(Lifted.ofDocument?_placeholders hg hlifted ht).mem_iff]
  exact hids.key_mem_map_iff (fun _ hother => hmembers (Document.of_mem_replaced hother).1)
    (fun _ _ hid => hid) hr

/-- A record that cannot be decoded is among those that fail exactly if it is among those
that wait. -/
theorem mem_failed_iff (hids : d.DistinctIds) {entries : List (Level × Record)}
    (hentries : ∀ e ∈ entries, e.2 ∈ d.allRecords) {r : Record} (hr : r ∈ d.allRecords)
    (hnone : g.face? r = none) :
    r.id ∈ Lift.failed g entries ↔ r.id ∈ entries.map fun e => e.2.id := by
  constructor
  · intro hfailed
    obtain ⟨other, hother, hid⟩ := List.mem_map.mp hfailed
    exact List.mem_map.mpr ⟨other, List.mem_of_mem_filter hother, hid⟩
  · intro hwaits
    obtain ⟨other, hother, hid⟩ := List.mem_map.mp hwaits
    obtain rfl := List.inj_on_of_nodup_map hids (hentries other hother) hr hid
    exact List.mem_map.mpr ⟨other, List.mem_filter.mpr ⟨hother, by simp [hnone]⟩, rfl⟩

/-- What is removed when an end node is decoded: among the nodes, the placeholders but for
those of end nodes that are decoded later. -/
theorem mem_removedBefore_iff (hg : g.UsesBuiltIns)
    (hids : d.DistinctIds) (ht : d.Unrolls g d.records t)
    (hlifted : Lifted.ofDocument? g d = some l) {early : List String}
    {before after : List (Level × Record)} {e : Level × Record}
    (hremoved : l.harvest.removed = early ++ Lift.failed g (Document.ends g t))
    (hends : Document.ends g t = before ++ e :: after) (hface : (g.face? e.2).isSome = true)
    {r : Record} (hr : Document.Survives g t r) :
    r.id ∈ early ++ Lift.failed g before ↔
      r.id ∈ l.harvest.report.placeholders ∧ r.id ∉ after.map fun e => e.2.id := by
  have hmembers := Document.members_subset hg ht (hids.idsApart hg t ht)
  have hin := hmembers hr.mem_members
  have hsplit : l.harvest.removed = (early ++ Lift.failed g before) ++ Lift.failed g after := by
    rw [hremoved, hends, Lift.failed_append, Lift.failed_cons_of_decodes hface,
      List.append_assoc]
  have hapart : r.id ∈ early ++ Lift.failed g before → r.id ∉ Lift.failed g after := by
    have hnodup := (Lifted.ofDocument?_removed hg hlifted ht).nodup_iff.mpr
      (hids.nodup_removed hg ht)
    rw [hsplit] at hnodup
    exact fun h h' => (List.nodup_append'.mp hnodup).2.2 h h'
  have hwaits : ∀ e ∈ after, e.2 ∈ d.allRecords := by
    intro other hother
    have hlisted : other ∈ Document.ends g t :=
      hends ▸ List.mem_append_right _ (List.mem_cons_of_mem _ hother)
    exact hmembers (Document.mem_members_of_mem_ends hlisted)
  have hlate : r ∈ Document.replacedRecords g t →
      (r.id ∈ Lift.failed g after ↔ r.id ∈ after.map fun e => e.2.id) := fun hreplaced =>
    mem_failed_iff hids hwaits hin (Document.of_mem_replaced hreplaced).2
  have hgone := mem_removed_iff hg hids ht hlifted hr
  rw [hsplit, List.mem_append] at hgone
  rw [mem_placeholders_iff hg hids ht hlifted hin]
  constructor
  · intro hearly
    have hreplaced := hgone.mp (Or.inl hearly)
    exact ⟨hreplaced, fun hafter => hapart hearly ((hlate hreplaced).mpr hafter)⟩
  · rintro ⟨hreplaced, hnot⟩
    exact (hgone.mpr hreplaced).resolve_right fun hfailed => hnot ((hlate hreplaced).mp hfailed)

/-- Whether an end node keeps an input, given the end nodes that are decoded after it: the
producer is in the graph, and it is no placeholder, or that of a later end node. -/
def keepsEndInput (c : Conversion) (later : List String) (i : Input) : Bool :=
  match i.reference? with
  | some ref => (c.graph.walk.map Node.id).contains ref.node &&
      (!c.report.placeholders.contains ref.node || later.contains ref.node)
  | none => true

/-- Leaving out removed producers and then absent ones comes to the rule. -/
theorem keepsInput_and_avoids (hg : g.UsesBuiltIns)
    (hids : d.DistinctIds) (ht : d.Unrolls g d.records t)
    (hlifted : Lifted.ofDocument? g d = some l) (hrebuilt : Rebuilt g d l t f)
    (hdecodes : Lift.Decodes g resolver .root t f) {early : List String}
    {before after : List (Level × Record)} {e : Level × Record}
    (hremoved : l.harvest.removed = early ++ Lift.failed g (Document.ends g t))
    (hends : Document.ends g t = before ++ e :: after) (hface : (g.face? e.2).isSome = true)
    (i : Input) :
    (keepsInput (presentIds l.levels) i && i.avoids (early ++ Lift.failed g before)) =
      keepsEndInput ⟨g.platform, (assemble g.platform l).1, (assemble g.platform l).2⟩
        (after.map fun e => e.2.id) i := by
  unfold keepsInput Input.avoids keepsEndInput isDangling
  cases hreference : i.reference? with
  | none => rfl
  | some ref =>
    have hpresent : (presentIds l.levels).contains ref.node =
        ((assemble g.platform l).1.walk.map Node.id).contains ref.node := by
      rw [Bool.eq_iff_iff, List.contains_iff_mem, List.contains_iff_mem]
      exact (hrebuilt.ids_walk_perm (hdecodes.isFresh hg)).mem_iff
    simp only [hpresent, Bool.not_not]
    cases hwalk : ((assemble g.platform l).1.walk.map Node.id).contains ref.node with
    | false => rfl
    | true =>
      obtain ⟨place, r, hlies, hsome, hid⟩ :=
        (hrebuilt.mem_ids_walk_iff hg hdecodes).mp (List.contains_iff_mem.mp hwalk)
      have hbefore := mem_removedBefore_iff hg hids ht hlifted hremoved hends hface
        ⟨place, hlies, hsome⟩
      rw [hid] at hbefore
      have hreport : (assemble g.platform l).2.placeholders = l.harvest.report.placeholders :=
        List.append_nil _
      rw [hreport, Bool.true_and, Bool.true_and, Bool.eq_iff_iff]
      simp only [Bool.not_eq_true', Bool.or_eq_true, ← Bool.not_eq_true, List.contains_iff_mem,
        hbefore, not_and_or, not_not]

/-- An end node has the inputs that its record declares, but for those from producers that are
absent, and those from placeholders that stood when it was decoded. A producer of an input
that it keeps is neither a loop-start record nor a dropped block. -/
structure DecodedInTurn (g : Registry) (d : Document) (resolver : Resolver) (t : Nested Record)
    (c : Conversion) (n : Node) : Prop where
  inputs : ∃ before place r after, Document.ends g t = before ++ (place, r) :: after ∧
    r.id = n.id ∧ n.inputs = (r.inputs.map (Lift.context g resolver []).input).filter
      (c.keepsEndInput (after.map fun e => e.2.id))
  producers : ∀ i ∈ n.inputs, ∀ ref, i.reference? = some ref →
    ref.node ∉ c.report.droppedBlocks ∧
      ∀ r ∈ d.allRecords, g.platform.isPseudoTag r.tag = true → r.id ≠ ref.node

/-- The inputs of an end node depend on when it was decoded. -/
theorem ofDocument_endInputs (hg : Registry.Derived p g) (hcheck : d.check = .ok ())
    (hacyclic : d.SectionsAcyclic g) (hids : d.DistinctIds) :
    ∃ resolver t c, Survey.resolver? g d = some resolver ∧ d.Unrolls g d.records t ∧
      ofDocument g d = .ok c ∧ ∀ n ∈ c.graph.walk, n.kind = .finish →
        DecodedInTurn g d resolver t c n := by
  have hbuiltIns := hg.usesBuiltIns
  obtain ⟨resolver, t, f, l, hresolver, ht, hdecodes, hlifted, hrebuilt, hc⟩ :=
    exists_rebuilt hbuiltIns hcheck hacyclic (hids.idsApart hbuiltIns)
  refine ⟨resolver, t, _, hresolver, ht, hc, fun n hn hkind => ?_⟩
  have hsubset := Document.members_subset hbuiltIns ht (hids.idsApart hbuiltIns t ht)
  obtain ⟨e, he, own, hown, hid, hsame, hinputs⟩ :=
    hrebuilt.exists_lifted hbuiltIns hdecodes hn
  constructor
  · obtain ⟨early, hremoved, hfills⟩ := Lifted.ofDocument?_ends hbuiltIns hlifted hresolver ht
    obtain ⟨before, place, r, after, hsplit, hdecode⟩ :=
      hfills.exists_decode hbuiltIns he hown (hsame.trans hkind)
    obtain ⟨hface, hrecord⟩ := Registry.face?_of_decode hbuiltIns hdecode
    have hrule := keepsInput_and_avoids hbuiltIns hids ht hlifted hrebuilt hdecodes
      hremoved hsplit (Option.isSome_iff_exists.mpr ⟨own.face, hface⟩)
    refine ⟨before, place, r, after, hsplit, hrecord.symm.trans hid, ?_⟩
    rw [hinputs, Registry.inputs_of_decode hbuiltIns (hsame.trans hkind) hdecode,
      List.filter_filter, funext hrule]
  · intro i hi ref hreference
    rw [hinputs, List.mem_filter] at hi
    have hpresent : ref.node ∈ presentIds l.levels := by
      simpa [keepsInput, hreference, isDangling] using hi.2
    have hwalk := (hrebuilt.ids_walk_perm (hdecodes.isFresh hbuiltIns)).mem_iff.mp hpresent
    obtain ⟨place, r, hlies, hsome, hproducer⟩ :=
      (hrebuilt.mem_ids_walk_iff hbuiltIns hdecodes).mp hwalk
    have hsurvives : Document.Survives g t r := ⟨place, hlies, hsome⟩
    have hr := hsubset hsurvives.mem_members
    have hplain : g.platform.isPseudoTag r.tag = false := by
      by_contra hpseudo
      rw [Lift.survivor?_eq_none_of_isPseudoTag (by simpa using hpseudo)] at hsome
      cases hsome
    rw [← hproducer]
    refine ⟨fun hdropped => ?_, fun other hother hpseudo hshared => ?_⟩
    · have hlisted := (mem_droppedBlocks_iff hbuiltIns hlifted hids ht hr).mp hdropped
      exact (hids.fates hbuiltIns ht hr hplain).1 ⟨hsurvives, hlisted⟩
    · obtain rfl := List.inj_on_of_nodup_map hids hother hr hshared
      rw [hplain] at hpseudo
      cases hpseudo

theorem ofDocument_endInputs_endsInTurn :
    Registry.Derived .coze (.withDefaults .coze) ∧ Document.endsInTurn.check = .ok () ∧
      Document.endsInTurn.SectionsAcyclic (.withDefaults .coze) ∧
        Document.endsInTurn.DistinctIds ∧
          ∃ resolver t c,
            Survey.resolver? (.withDefaults .coze) Document.endsInTurn = some resolver ∧
            Document.endsInTurn.Unrolls (.withDefaults .coze) Document.endsInTurn.records t ∧
            ofDocument (.withDefaults .coze) Document.endsInTurn = .ok c ∧
            ∀ n ∈ c.graph.walk, n.kind = .finish →
              DecodedInTurn (.withDefaults .coze) Document.endsInTurn resolver t c n := by
  have hcheck : Document.endsInTurn.check = .ok () := by decide +kernel
  have hacyclic : Document.endsInTurn.SectionsAcyclic (.withDefaults .coze) :=
    Document.sectionsAcyclic_of_eq_nil rfl
  have hids : Document.endsInTurn.DistinctIds := by decide +kernel
  exact ⟨.defaults, hcheck, hacyclic, hids,
    ofDocument_endInputs .defaults hcheck hacyclic hids⟩

/-- The end node that is decoded first keeps its input from a placeholder. -/
theorem endBeforeFailing_kept :
    Document.endBeforeFailing.check = .ok () ∧
      Document.endBeforeFailing.SectionsAcyclic (.withDefaults .coze) ∧
        Document.endBeforeFailing.DistinctIds ∧
          ∃ c, ofDocument (.withDefaults .coze) Document.endBeforeFailing = .ok c ∧
            ∃ n ∈ c.graph.walk, n.kind = .finish ∧ ∃ i ∈ n.inputs, ∃ ref,
              i.reference? = some ref ∧ ref.node ∈ c.report.placeholders := by
  have hresult : (ofDocument (.withDefaults .coze) Document.endBeforeFailing).toOption.map
      (fun c => (c.graph.walk.map fun n => (n.kind, n.inputs.map Input.reference?),
        c.report.placeholders)) =
        some ([(.finish, [some ⟨"late", "x", .any⟩]), (.code, [])], ["late"]) := by
    decide +kernel
  obtain ⟨c, hc, hfound⟩ := Option.map_eq_some_iff.mp hresult
  obtain ⟨hnodes, hplaceholders⟩ := Prod.mk.inj hfound
  have hend : (NodeKind.finish, [some ⟨"late", "x", .any⟩]) ∈
      c.graph.walk.map fun n => (n.kind, n.inputs.map Input.reference?) := by
    rw [hnodes]
    exact List.mem_cons_self
  obtain ⟨n, hn, hsame⟩ := List.mem_map.mp hend
  obtain ⟨hkind, hinputs⟩ := Prod.mk.inj hsame
  obtain ⟨i, hi, hreference⟩ := List.mem_map.mp (hinputs.symm ▸ List.mem_singleton_self _)
  refine ⟨by decide +kernel, Document.sectionsAcyclic_of_eq_nil rfl, by decide +kernel,
    c, eq_ok_of_toOption_eq_some hc, n, hn, hkind, i, hi, _, hreference, ?_⟩
  rw [hplaceholders]
  exact List.mem_singleton_self _

end Conversion

end WorkflowGraph
