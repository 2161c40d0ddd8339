/-
# When end nodes are decoded

End nodes wait until all other records are done. Then they are decoded level by level, a
level after the levels inside it and the root last. Each of them sees what was removed up to
then: the ids of the end nodes that were decoded before it and failed are among them, those
of later ones are not.
-/

import WorkflowGraph.Proofs.SettledRuns

namespace WorkflowGraph

/-- A record of a lifted list waits until the other records are done. -/
def Registry.isEnd (g : Registry) (r : Record) : Bool :=
  !g.platform.isPseudoTag r.tag && g.kind? r.tag == some .finish

/-- What survives as an end node is decoded. -/
theorem Registry.face?_of_survivor? {g : Registry} {level : Level} {r : Record} {face : Face}
    (hsome : g.survivor? level r = some face) (hkind : face.kind = .finish) :
    g.face? r = some face := by
  unfold survivor? at hsome
  split at hsome
  · cases hsome
  · cases hface : g.face? r with
    | some found => simpa [hface] using hsome
    | none =>
      obtain ⟨-, rfl⟩ : level = .root ∧ (placeholder g.platform r).face = face := by
        simpa [hface] using hsome
      cases hkind

/-- The records of end nodes of some lists, in the order in which they are decoded. -/
def Document.waiting (g : Registry) (lists : List (Level × Nested Record)) :
    List (Level × Record) :=
  lists.flatMap fun e => (e.2.roots.filter g.isEnd).map fun r => (e.1, r)

/-- The records of end nodes of a nesting, in the order in which they are decoded. -/
def Document.ends (g : Registry) (t : Nested Record) : List (Level × Record) :=
  waiting g (t.levels Record.id .root)

namespace Lift

variable {g : Registry} {d : Document} {resolver : Resolver}

/-- The slot of a record. Records other than those of end nodes are decoded at once, and
alike whatever was removed before. -/
def slot? (g : Registry) (resolver : Resolver) (level : Level) (r : Record) : Option Slot :=
  if g.platform.isPseudoTag r.tag then none
  else if g.kind? r.tag = some .finish then some (.deferred r)
  else (decodeRecord g resolver level [] r).1.map .ready

theorem filterMap_slot?_cons (level : Level) (r : Record) (rs : List Record) :
    (r :: rs).filterMap (slot? g resolver level) =
      (slot? g resolver level r).toList ++ rs.filterMap (slot? g resolver level) := by
  rw [List.filterMap_cons]
  cases slot? g resolver level r <;> rfl

/-- The slots of a list. -/
def slotsAt (g : Registry) (resolver : Resolver) (e : Level × Nested Record) :
    Level × List Slot :=
  (e.1, e.2.roots.filterMap (slot? g resolver e.1))

/-! ## The slots of a run -/

theorem record_slots (hg : g.UsesBuiltIns) {level : Level} {removed : List String} {r : Record}
    {inner : Level → List String → Blocks → Option Harvest} {slots : List Slot} {h : Harvest}
    (hrecord : record g d resolver inner level removed r = some (slots, h)) :
    slots = (slot? g resolver level r).toList := by
  unfold record at hrecord
  unfold slot?
  split at hrecord
  next hpseudo =>
    obtain ⟨rfl, -⟩ := Prod.mk.inj (Option.some.inj hrecord)
    rw [if_pos hpseudo]
    rfl
  next hplain =>
    rw [if_neg hplain]
    split at hrecord
    next hfinish =>
      obtain ⟨rfl, -⟩ := Prod.mk.inj (Option.some.inj hrecord)
      rw [if_pos hfinish]
      rfl
    next hfinish =>
      rw [if_neg hfinish, ← decodeRecord_of_ne_finish hg hfinish level removed []]
      generalize decodeRecord g resolver level removed r = out at hrecord ⊢
      obtain ⟨_, -, hpair⟩ := Option.map_eq_some_iff.mp hrecord
      exact (Prod.mk.inj hpair).1.symm

/-- The levels that lifting a body stores, each after those inside it. -/
def Stores (g : Registry) (d : Document) (resolver : Resolver) (level : Level) (body : Blocks)
    (h : Harvest) : Prop :=
  ∀ t, d.Unrolls g body.records t →
    h.levels = (t.levels Record.id level).map (slotsAt g resolver)

theorem records_stores (hg : g.UsesBuiltIns)
    {inner : Level → List String → Blocks → Option Harvest}
    (hinner : ∀ level removed body h, inner level removed body = some h →
      Stores g d resolver level body h) {level : Level} {rs : List Record} {t : Nested Record}
    (ht : d.Unrolls g rs t) :
    ∀ removed slots h, records g d resolver inner level removed rs = some (slots, h) →
      slots = rs.filterMap (slot? g resolver level) ∧
        h.levels = (t.bodies Record.id).map (slotsAt g resolver) := by
  induction ht with
  | nil =>
    intro removed slots h hrecords
    obtain ⟨rfl, rfl⟩ := Prod.mk.inj (Option.some.inj hrecords)
    exact ⟨rfl, rfl⟩
  | @leaf r rs t hclosed _ ih =>
    intro removed slots h hrecords
    obtain ⟨here, hhere, more, rest, hrecord, hmore, rfl, rfl⟩ := records_cons_eq_some hrecords
    obtain ⟨hslots, hlevels⟩ := ih _ _ _ hmore
    have hfirst := record_slots hg hrecord
    cases record_draws hg hrecord with
    | opened hopen => cases hclosed.symm.trans hopen
    | closed _ hdraws =>
      refine ⟨by rw [hfirst, hslots, filterMap_slot?_cons], ?_⟩
      rw [Harvest.levels_append, hdraws.levels, hlevels]
      rfl
  | @loop r rs body u t hopen hu _ _ ih =>
    intro removed slots h hrecords
    obtain ⟨here, hhere, more, rest, hrecord, hmore, rfl, rfl⟩ := records_cons_eq_some hrecords
    obtain ⟨hslots, hlevels⟩ := ih _ _ _ hmore
    have hfirst := record_slots hg hrecord
    cases record_draws hg hrecord with
    | closed hclosed => cases hclosed.symm.trans hopen
    | opened hother hdraws hinside =>
      obtain rfl := Option.some.inj (hopen.symm.trans hother)
      have hbody := hinner _ _ _ _ hinside u hu
      refine ⟨by rw [hfirst, hslots, filterMap_slot?_cons], ?_⟩
      rw [Harvest.levels_append, Harvest.levels_append, hdraws.levels, hbody, hlevels,
        Nested.levels, Nested.bodies]
      simp

/-- Where the bound on the depth suffices, lifting a level stores the slots of its nesting. -/
theorem within_stores (hg : g.UsesBuiltIns) (n : Nat) :
    ∀ level removed body h, within g d resolver n level removed body = some h →
      Stores g d resolver level body h := by
  induction n with
  | zero => nofun
  | succ n ih =>
    intro level removed body h hwithin t ht
    obtain ⟨slots, inside, hrecords, rfl⟩ := within_succ_eq_some hwithin
    obtain ⟨rfl, hlevels⟩ := records_stores hg ih ht _ _ _ hrecords
    have hroots : slotsAt g resolver (level, t) =
        (level, body.records.filterMap (slot? g resolver level)) := by
      rw [slotsAt, ht.roots_eq]
    rw [Nested.levels, List.map_append, List.map_singleton, hroots, ← hlevels]
    rfl

/-! ## Decoding what waits -/

/-- The ids of the records that cannot be decoded. -/
def failed (g : Registry) (entries : List (Level × Record)) : List String :=
  (entries.filter fun e => (g.face? e.2).isNone).map fun e => e.2.id

theorem failed_append (a b : List (Level × Record)) :
    failed g (a ++ b) = failed g a ++ failed g b := by
  rw [failed, List.filter_append, List.map_append]
  rfl

theorem failed_cons_of_decodes {e : Level × Record} (hdecodes : (g.face? e.2).isSome = true)
    (after : List (Level × Record)) : failed g (e :: after) = failed g after := by
  rw [failed, failed, List.filter_cons_of_neg (by simp [Option.isSome_iff_ne_none.mp hdecodes])]

/-- A record of a level became a node. If it had to wait, it is one of those that were decoded
in turn, and it was decoded after what was removed before and those of them that failed. -/
def MadeInTurn (g : Registry) (resolver : Resolver) (removed : List String)
    (entries : List (Level × Record)) (level : Level) (r : Record) (n : Node) : Prop :=
  g.platform.isPseudoTag r.tag = false ∧
    ∃ seen, (decodeRecord g resolver level seen r).1 = some n ∧
      (g.isEnd r = true → ∃ before after, entries = before ++ (level, r) :: after ∧
        seen = removed ++ failed g before)

namespace MadeInTurn

variable {removed : List String} {entries : List (Level × Record)} {level : Level} {r : Record}
  {n : Node}

theorem append (hn : MadeInTurn g resolver removed entries level r n)
    (more : List (Level × Record)) :
    MadeInTurn g resolver removed (entries ++ more) level r n := by
  obtain ⟨hplain, seen, hout, hturn⟩ := hn
  refine ⟨hplain, seen, hout, fun hend => ?_⟩
  obtain ⟨before, after, rfl, hseen⟩ := hturn hend
  exact ⟨before, after ++ more, by simp, hseen⟩

theorem prepend {first : List (Level × Record)}
    (hn : MadeInTurn g resolver (removed ++ failed g first) entries level r n) :
    MadeInTurn g resolver removed (first ++ entries) level r n := by
  obtain ⟨hplain, seen, hout, hturn⟩ := hn
  refine ⟨hplain, seen, hout, fun hend => ?_⟩
  obtain ⟨before, after, rfl, hseen⟩ := hturn hend
  exact ⟨first ++ before, after, by simp, by rw [hseen, failed_append, List.append_assoc]⟩

theorem becomes (hn : MadeInTurn g resolver removed entries level r n) :
    Becomes g resolver level r n :=
  ⟨hn.1, hn.2.imp fun _ hout => hout.1⟩

/-- An end node was made of a record that waited, and that could be decoded. -/
theorem isEnd (hg : g.UsesBuiltIns) (hn : MadeInTurn g resolver removed entries level r n)
    (hkind : n.kind = .finish) : g.isEnd r = true ∧ g.face? r = some n.face := by
  have hface := Registry.face?_of_survivor? (hn.becomes.survivor?_eq hg) hkind
  have htag := (Registry.decode_of_face?_eq_some hg hface).2.1
  refine ⟨?_, hface⟩
  rw [Registry.isEnd, hn.1, htag]
  exact beq_iff_eq.mpr (congrArg some hkind)

end MadeInTurn

/-- A record waits in its slot, or it has no slot and becomes no node, or it has its node. -/
theorem slot?_cases (hg : g.UsesBuiltIns) (resolver : Resolver) (level : Level) (r : Record) :
    g.isEnd r = true ∧ g.platform.isPseudoTag r.tag = false ∧
        slot? g resolver level r = some (.deferred r) ∨
      g.isEnd r = false ∧ g.survivor? level r = none ∧ slot? g resolver level r = none ∨
      g.isEnd r = false ∧ ∃ n, g.platform.isPseudoTag r.tag = false ∧
        (decodeRecord g resolver level [] r).1 = some n ∧
        slot? g resolver level r = some (.ready n) := by
  unfold slot? Registry.isEnd
  cases hpseudo : g.platform.isPseudoTag r.tag with
  | true => exact Or.inr (Or.inl ⟨rfl, survivor?_eq_none_of_isPseudoTag hpseudo, rfl⟩)
  | false =>
    by_cases hfinish : g.kind? r.tag = some .finish
    · exact Or.inl ⟨by simp [hfinish], rfl, by simp [hfinish]⟩
    · rw [if_neg Bool.false_ne_true, if_neg hfinish]
      have hface := (decodeRecord_spec hg resolver level [] hpseudo).face
      cases hn : (decodeRecord g resolver level [] r).1 with
      | none =>
        rw [hn] at hface
        exact Or.inr (Or.inl ⟨by simp [hfinish], hface.symm, rfl⟩)
      | some n => exact Or.inr (Or.inr ⟨by simp [hfinish], n, rfl, rfl, rfl⟩)

/-- Decoding a record removes it if it fails. -/
theorem removed_decodeRecord (hg : g.UsesBuiltIns) (resolver : Resolver) (level : Level)
    (removed : List String) (r : Record) :
    (decodeRecord g resolver level removed r).2.removed = failed g [(level, r)] := by
  cases hface : g.face? r with
  | some face =>
    obtain ⟨-, -, hdecodes⟩ := Registry.decode_of_face?_eq_some hg hface
    obtain ⟨n, hn, -⟩ := hdecodes (context g resolver removed)
    rw [decodeRecord_of_ok hn]
    simp [failed, hface]
    rfl
  | none =>
    obtain ⟨e, hfails⟩ := Registry.decode_of_face?_eq_none hg hface
    cases level with
    | root =>
      rw [decodeRecord_root_of_error (hfails _)]
      simp [failed, hface]
      rfl
    | body owner =>
      rw [decodeRecord_body_of_error (hfails _)]
      simp [failed, hface]
      rfl

/-- A record that waits becomes its node, if it becomes one, with what was removed before. -/
theorem forall₂_decodeRecord (hg : g.UsesBuiltIns) (resolver : Resolver) (level : Level)
    (removed : List String) {r : Record} (hplain : g.platform.isPseudoTag r.tag = false)
    (more : List (Level × Record)) :
    List.Forall₂ (MadeInTurn g resolver removed ((level, r) :: more) level)
      (g.survivors level [r]) (decodeRecord g resolver level removed r).1.toList := by
  have hface := (decodeRecord_spec hg resolver level removed hplain).face
  unfold Registry.survivors
  cases hn : (decodeRecord g resolver level removed r).1 with
  | none =>
    rw [hn] at hface
    rw [List.filter_cons_of_neg (by simp [← hface])]
    exact .nil
  | some n =>
    rw [hn] at hface
    rw [List.filter_cons_of_pos (by simp [← hface])]
    refine .cons ⟨hplain, removed, hn, fun _ => ⟨[], more, rfl, ?_⟩⟩ .nil
    rw [failed, List.filter_nil, List.map_nil, List.append_nil]

/-- The records that wait on a level are decoded in their order. -/
theorem finishSlots_spec (hg : g.UsesBuiltIns) (resolver : Resolver) (level : Level)
    (rs : List Record) :
    ∀ removed, (finishSlots g resolver level removed
        (rs.filterMap (slot? g resolver level))).2.removed =
          failed g ((rs.filter g.isEnd).map fun r => (level, r)) ∧
      List.Forall₂
        (MadeInTurn g resolver removed ((rs.filter g.isEnd).map fun r => (level, r)) level)
        (g.survivors level rs)
        (finishSlots g resolver level removed (rs.filterMap (slot? g resolver level))).1 := by
  induction rs with
  | nil => exact fun _ => ⟨rfl, .nil⟩
  | cons r rs ih =>
    intro removed
    have hsurvivors : g.survivors level (r :: rs) =
        g.survivors level [r] ++ g.survivors level rs := List.filter_append [r] rs
    rcases slot?_cases hg resolver level r with
      ⟨hend, hplain, hslot⟩ | ⟨hend, hgone, hslot⟩ | ⟨hend, n, hplain, hout, hslot⟩
    · rw [List.filterMap_cons_some hslot, List.filter_cons_of_pos hend, List.map_cons, hsurvivors]
      have hremoved := removed_decodeRecord hg resolver level removed r
      simp only [finishSlots, Harvest.removed_append, hremoved]
      obtain ⟨hlater, hmore⟩ := ih (removed ++ failed g [(level, r)])
      refine ⟨by rw [hlater, ← failed_append, List.singleton_append], ?_⟩
      exact List.rel_append (forall₂_decodeRecord hg resolver level removed hplain _)
        (hmore.imp fun _ _ hn => hn.prepend)
    · rw [List.filterMap_cons_none hslot, List.filter_cons_of_neg (Bool.eq_false_iff.mp hend)]
      have hnone : g.survivors level (r :: rs) = g.survivors level rs :=
        List.filter_cons_of_neg (by simp [hgone])
      rw [hnone]
      exact ih removed
    · rw [List.filterMap_cons_some hslot, List.filter_cons_of_neg (Bool.eq_false_iff.mp hend)]
      have hsome := (decodeRecord_spec hg resolver level [] hplain).face
      rw [hout] at hsome
      have hkept : g.survivors level (r :: rs) = r :: g.survivors level rs :=
        List.filter_cons_of_pos (by simp [← hsome])
      rw [hkept]
      obtain ⟨hremoved, hmore⟩ := ih removed
      refine ⟨hremoved, .cons ⟨hplain, [], hout, fun h => ?_⟩ hmore⟩
      cases hend.symm.trans h

/-- The nodes of some lists are those of the records that survive on them, in their order, and
those that had to wait were decoded in turn. -/
def FilledInTurn (g : Registry) (resolver : Resolver) (removed : List String)
    (entries : List (Level × Record)) (list : Level × Nested Record)
    (filled : Level × List Node) : Prop :=
  filled.1 = list.1 ∧ List.Forall₂ (MadeInTurn g resolver removed entries list.1)
    (g.survivors list.1 list.2.roots) filled.2

/-- The records that wait on all levels are decoded level by level. -/
theorem finishLevels_spec (hg : g.UsesBuiltIns) (resolver : Resolver)
    (lists : List (Level × Nested Record)) :
    ∀ removed,
      (finishLevels g resolver removed (lists.map (slotsAt g resolver))).2.removed =
          failed g (Document.waiting g lists) ∧
        List.Forall₂ (FilledInTurn g resolver removed (Document.waiting g lists)) lists
          (finishLevels g resolver removed (lists.map (slotsAt g resolver))).1 := by
  induction lists with
  | nil => exact fun _ => ⟨rfl, .nil⟩
  | cons list lists ih =>
    intro removed
    obtain ⟨hhere, hnodes⟩ := finishSlots_spec hg resolver list.1 list.2.roots removed
    obtain ⟨hlater, hmore⟩ :=
      ih (removed ++ failed g ((list.2.roots.filter g.isEnd).map fun r => (list.1, r)))
    simp only [List.map_cons, slotsAt, finishLevels, Harvest.removed_append, hhere]
    rw [Document.waiting, List.flatMap_cons, failed_append]
    refine ⟨congrArg (_ ++ ·) hlater, .cons ⟨rfl, ?_⟩ ?_⟩
    · exact hnodes.imp fun _ _ hn => hn.append _
    · exact hmore.imp fun _ _ hfilled =>
        ⟨hfilled.1, hfilled.2.imp fun _ _ hn => hn.prepend⟩

end Lift

namespace Lifted

variable {g : Registry} {d : Document} {resolver : Resolver} {l : Lifted} {t : Nested Record}

/-- The levels of a run are filled from those of a nesting; `early` is removed before any end
node is decoded. -/
def FillsInTurn (g : Registry) (resolver : Resolver) (early : List String) (t : Nested Record)
    (l : Lifted) : Prop :=
  List.Forall₂ (Lift.FilledInTurn g resolver early (Document.ends g t))
    (t.levels Record.id .root) l.levels

/-- What a run removes in the end is what it removed before any end node was decoded, and the
end nodes that failed. Each end node was decoded after those before it. -/
theorem ofDocument?_ends (hg : g.UsesBuiltIns) (hlifted : ofDocument? g d = some l)
    (hresolver : Survey.resolver? g d = some resolver) (ht : d.Unrolls g d.records t) :
    ∃ early, l.harvest.removed = early ++ Lift.failed g (Document.ends g t) ∧
      l.FillsInTurn g resolver early t := by
  obtain ⟨_, root, hfound, hroot, all, hall, rfl⟩ := ofDocument?_eq_some hlifted
  obtain rfl := Option.some.inj (hresolver.symm.trans hfound)
  have hstores := Lift.within_stores hg _ _ _ _ _ hroot t ht
  have hidle := Lift.isIdle_orphans (g := g) (d := d) root.usedSections
  have hlevels : all.levels = (t.levels Record.id .root).map (Lift.slotsAt g resolver) := by
    rw [← hall, Harvest.levels_append, hstores, hidle.levels, List.append_nil]
  obtain ⟨hremoved, hnodes⟩ :=
    Lift.finishLevels_spec hg resolver (t.levels Record.id .root) all.removed
  rw [← hlevels] at hremoved hnodes
  exact ⟨all.removed, congrArg (all.removed ++ ·) hremoved, hnodes⟩

/-- An end node was decoded from one of the records that wait, after those before it. -/
theorem FillsInTurn.exists_decode (hg : g.UsesBuiltIns) {early : List String}
    (hfills : l.FillsInTurn g resolver early t) {e : Level × List Node} (he : e ∈ l.levels)
    {n : Node} (hn : n ∈ e.2) (hkind : n.kind = .finish) :
    ∃ before level r after, Document.ends g t = before ++ (level, r) :: after ∧
      g.decode (Lift.context g resolver (early ++ Lift.failed g before)) r = .ok n := by
  obtain ⟨list, -, -, hnodes⟩ := exists_of_forall₂_of_mem hfills.flip he
  obtain ⟨r, -, hmade⟩ : ∃ r ∈ g.survivors list.1 list.2.roots,
      Lift.MadeInTurn g resolver early (Document.ends g t) list.1 r n :=
    exists_of_forall₂_of_mem hnodes.flip hn
  obtain ⟨hend, hface⟩ := hmade.isEnd hg hkind
  obtain ⟨-, seen, hout, hturn⟩ := hmade
  obtain ⟨before, after, hsplit, rfl⟩ := hturn hend
  exact ⟨before, list.1, r, after, hsplit,
    Lift.decode_of_decodeRecord hg (Option.isSome_iff_exists.mpr ⟨_, hface⟩) hout⟩

end Lifted

end WorkflowGraph
