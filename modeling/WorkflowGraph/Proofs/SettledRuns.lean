/-
# Runs whose end nodes decode

Decoding a record depends on its context in two ways only: pointers are resolved, and a
decoder for end nodes asks which ids were removed. If all end nodes of a document decode,
nothing is removed any more while they wait, so the whole run comes to one rule: every record
is decoded with the resolver of the document and the final removed ids. The nodes of a run
are given here by that rule, and so is what the run notes, as multisets, because the order of
the notes depends on when end nodes are decoded.
-/

import Mathlib.Algebra.Group.Prod
import Mathlib.Algebra.Order.Group.Multiset
import Mathlib.Tactic.Abel
import WorkflowGraph.Proofs.RootOrder

namespace WorkflowGraph

namespace Decoder

variable {ctx other : DecodeContext} (hcapture : ctx.capture = other.capture)

include hcapture

theorem node_congr (r : Record) : ctx.node r = other.node r := by
  have hinput : ctx.input = other.input := by
    funext i
    unfold DecodeContext.input
    rw [hcapture]
  funext config
  simp only [DecodeContext.node, hinput]

theorem branchCase_congr : branchCase ctx = branchCase other := by
  have hcondition : condition ctx = condition other := by
    funext operand
    simp only [condition, hcapture]
  funext index c
  rw [branchCase, branchCase, hcondition]

/-- A decoder of the library sees of its context how pointers are captured, and the decoder
for end nodes sees also which ids are removed. -/
theorem decode_congr (kind : NodeKind)
    (hremoved : kind = .finish → ctx.isRemoved = other.isRemoved) (r : Record) :
    (builtIn kind).decode ctx r = (builtIn kind).decode other r := by
  have hnode := node_congr hcapture r
  cases kind with
  | start => simp only [builtIn, decodeStart, hnode]
  | finish => simp only [builtIn, decodeFinish, hnode, hremoved rfl]
  | llm => simp only [builtIn, decodeLlm, hnode]
  | code => simp only [builtIn, decodeCode, hnode]
  | condition => simp only [builtIn, decodeCondition, hnode, branchCase_congr hcapture]
  | classifier => simp only [builtIn, decodeClassifier, hnode, hcapture]
  | iteration => simp only [builtIn, decodeIteration, hnode, hcapture]

end Decoder

namespace Registry

variable {g : Registry} {ctx other : DecodeContext} {r : Record}

theorem decode_congr (hg : g.UsesBuiltIns) (hcapture : ctx.capture = other.capture)
    (hremoved : g.kind? r.tag = some .finish → ctx.isRemoved = other.isRemoved) :
    g.decode ctx r = g.decode other r := by
  unfold kind? at hremoved
  unfold decode decoder
  cases hd : Table.get? r.tag g.decoders with
  | none => rfl
  | some d =>
      rw [hd] at hremoved
      have hsame := Decoder.decode_congr hcapture d.kind
        (fun hkind => hremoved (congrArg some hkind)) r
      rw [← hg r.tag d hd] at hsame
      exact hsame

end Registry

namespace Harvest

/-- What a harvest notes, without the order: the removed ids, the findings, the placeholders,
the dropped blocks, and the number of decoded nodes. -/
def tally (h : Harvest) :
    Multiset String × Multiset Diagnostic × Multiset String × Multiset String × Nat :=
  (h.removed, h.report.diagnostics, h.report.placeholders, h.report.droppedBlocks,
    h.report.converted)

@[simp] theorem tally_append (a b : Harvest) : (a ++ b).tally = a.tally + b.tally :=
  rfl

@[simp] theorem tally_empty : empty.tally = 0 :=
  rfl

@[simp] theorem tally_ofLinks (level : Level) (links : List Link) :
    (ofLinks level links).tally = 0 :=
  rfl

@[simp] theorem tally_ofLevel (level : Level) (slots : List Slot) :
    (ofLevel level slots).tally = 0 :=
  rfl

end Harvest

namespace Lift

variable {g : Registry} {d : Document} {resolver : Resolver}

theorem decodeRecord_congr (hg : g.UsesBuiltIns) {resolver' : Resolver}
    (hresolve : resolver.resolve = resolver'.resolve) {removed removed' : List String}
    {r : Record} (hremoved : g.kind? r.tag = some .finish → removed.contains = removed'.contains)
    (level : Level) : decodeRecord g resolver level removed r =
      decodeRecord g resolver' level removed' r := by
  have hdecode : g.decode (context g resolver removed) r =
      g.decode (context g resolver' removed') r := by
    refine Registry.decode_congr hg ?_ hremoved
    funext p
    exact congrFun (congrFun hresolve p.node) p.output
  cases level with
  | root =>
      simp only [decodeRecord, Registry.decodeOrPlaceholder, hdecode]
      rfl
  | body owner => simp only [decodeRecord, hdecode]

section Settled

variable (g : Registry) (resolver : Resolver) (removed : List String) (level : Level)

/-- The node that a record becomes, decoded with the final removed ids. -/
def nodeOf? (r : Record) : Option Node :=
  if g.platform.isPseudoTag r.tag then none else (decodeRecord g resolver level removed r).1

/-- What the body on a record yields that is decoded but cannot hold its body. -/
def aside (r : Record) : Harvest :=
  if g.kind? r.tag = some .finish ∨ g.isLoop r = true then .empty
  else .ofUnliftedInner g.platform r.id r.blocks

/-- What a record yields of itself, decoded with the final removed ids. -/
def yield (r : Record) : Harvest :=
  if g.platform.isPseudoTag r.tag then .ofStart level r.id
  else (decodeRecord g resolver level removed r).2 ++ aside g r

/-- The nesting of nodes that a nesting of records becomes, all of them decoded with the
final removed ids. -/
def settled (t : Nested Record) : Nested Node :=
  t.settle (nodeOf? g resolver removed) Record.id level

/-- The node that a slot holds in the end, with the final removed ids. -/
def fill? : Slot → Option Node
  | .ready n => some n
  | .deferred r => (decodeRecord g resolver level removed r).1

/-- What decoding the record of a slot yields, if it was deferred. -/
def late : Slot → Harvest
  | .ready _ => .empty
  | .deferred r => (decodeRecord g resolver level removed r).2

end Settled

/-- The notes that the deferred records of a level add. -/
def lateTally (g : Registry) (resolver : Resolver) (removed : List String)
    (e : Level × List Slot) :
    Multiset String × Multiset Diagnostic × Multiset String × Multiset String × Nat :=
  (e.2.map fun slot => (late g resolver removed e.1 slot).tally).sum

/-- The level of a nesting of nodes, as a list of levels holds it. -/
def listed (e : Level × Nested Node) : Level × List Node :=
  (e.1, e.2.roots)

/-- The nodes of a level, once its deferred records are decoded. -/
def filled (g : Registry) (resolver : Resolver) (removed : List String)
    (e : Level × List Slot) : Level × List Node :=
  (e.1, e.2.filterMap (fill? g resolver removed e.1))

/-- Slots and a harvest hold what a nesting of records comes to: filled with any removed ids,
they are the nodes decoded with these ids, and the notes are complete with those of the
deferred records. -/
structure Delivers (g : Registry) (resolver : Resolver) (level : Level) (t : Nested Record)
    (slots : List Slot) (h : Harvest) : Prop where
  roots : ∀ removed, slots.filterMap (fill? g resolver removed level) =
    (settled g resolver removed level t).roots
  bodies : ∀ removed, h.levels.map (filled g resolver removed) =
    ((settled g resolver removed level t).bodies Node.id).map listed
  tally : ∀ removed, h.tally + ((h.levels.map (lateTally g resolver removed)).sum +
      lateTally g resolver removed (level, slots)) =
    ((t.located Record.id level).map fun e => (yield g resolver removed e.1 e.2).tally).sum
  ends : ∀ r, .deferred r ∈ slots ++ h.levels.flatMap Prod.snd →
    r ∈ t.members ∧ g.kind? r.tag = some .finish ∧ g.platform.isPseudoTag r.tag = false

/-- Slots and a harvest hold what a single record comes to, without the body that is lifted
with it. -/
structure Draws (g : Registry) (resolver : Resolver) (level : Level) (r : Record)
    (slots : List Slot) (h : Harvest) : Prop where
  roots : ∀ removed, slots.filterMap (fill? g resolver removed level) =
    (nodeOf? g resolver removed level r).toList
  levels : h.levels = []
  tally : ∀ removed, h.tally + lateTally g resolver removed (level, slots) =
    (yield g resolver removed level r).tally
  ends : ∀ r', .deferred r' ∈ slots →
    r' = r ∧ g.kind? r.tag = some .finish ∧ g.platform.isPseudoTag r.tag = false

theorem lateTally_append (removed : List String) (level : Level) (a b : List Slot) :
    lateTally g resolver removed (level, a ++ b) =
      lateTally g resolver removed (level, a) + lateTally g resolver removed (level, b) := by
  simp [lateTally]

theorem lateTally_nil (removed : List String) (level : Level) :
    lateTally g resolver removed (level, []) = 0 :=
  rfl

theorem delivers_nil (level : Level) : Delivers g resolver level .nil [] .empty where
  roots := fun _ => rfl
  bodies := fun _ => rfl
  tally := fun _ => rfl
  ends := nofun

section Step

variable {level : Level} {r : Record} {t inner : Nested Record} {slots more : List Slot}
  {own rest : Harvest}

theorem Delivers.leaf (hdraws : Draws g resolver level r slots own)
    (hrest : Delivers g resolver level t more rest) :
    Delivers g resolver level (.leaf r t) (slots ++ more) (own ++ rest) where
  roots := by
    intro removed
    rw [List.filterMap_append, hdraws.roots, hrest.roots]
    cases hn : nodeOf? g resolver removed level r <;>
      simp [settled, Nested.settle, hn, Nested.roots]
  bodies := by
    intro removed
    rw [Harvest.levels_append, hdraws.levels, List.nil_append, hrest.bodies]
    cases hn : nodeOf? g resolver removed level r <;>
      simp [settled, Nested.settle, hn, Nested.bodies]
  tally := by
    intro removed
    have hsum := congrArg₂ (· + ·) (hdraws.tally removed) (hrest.tally removed)
    rw [Nested.located, List.map_cons, List.sum_cons, ← hsum, Harvest.tally_append,
      Harvest.levels_append, hdraws.levels, List.nil_append, lateTally_append]
    abel
  ends := by
    intro r' hr'
    rw [Harvest.levels_append, hdraws.levels, List.nil_append, List.append_assoc,
      List.mem_append] at hr'
    rcases hr' with hhere | hlater
    · obtain ⟨rfl, hend⟩ := hdraws.ends r' hhere
      exact ⟨List.mem_cons_self, hend⟩
    · obtain ⟨hmem, hend⟩ := hrest.ends r' hlater
      exact ⟨List.mem_cons_of_mem _ hmem, hend⟩

theorem Delivers.loop {innerSlots : List Slot} {inside : Harvest} (links : List Link)
    (hnode : ∀ removed, ∃ n, nodeOf? g resolver removed level r = some n ∧ n.id = r.id)
    (hdraws : Draws g resolver level r slots own)
    (hinner : Delivers g resolver (.body r.id) inner innerSlots inside)
    (hrest : Delivers g resolver level t more rest) :
    Delivers g resolver level (.loop r inner t) (slots ++ more)
      (own ++ (.ofLinks (.body r.id) links ++ inside ++ .ofLevel (.body r.id) innerSlots) ++
        rest) := by
  have hlevels : (own ++ (.ofLinks (.body r.id) links ++ inside ++
      .ofLevel (.body r.id) innerSlots) ++ rest).levels =
      inside.levels ++ (.body r.id, innerSlots) :: rest.levels := by
    simp [hdraws.levels, Harvest.ofLinks, Harvest.ofLevel, Harvest.empty]
  refine ⟨fun removed => ?_, fun removed => ?_, fun removed => ?_, fun r' hr' => ?_⟩
  · obtain ⟨n, hn, -⟩ := hnode removed
    rw [List.filterMap_append, hdraws.roots, hrest.roots]
    simp [settled, Nested.settle, hn, Nested.roots]
  · obtain ⟨n, hn, hid⟩ := hnode removed
    rw [hlevels, List.map_append, List.map_cons, hinner.bodies, hrest.bodies]
    have hsettled : settled g resolver removed level (.loop r inner t) =
        .loop n (settled g resolver removed (.body r.id) inner)
          (settled g resolver removed level t) := by
      simp only [settled, Nested.settle, hn]
    rw [hsettled, Nested.bodies, List.map_append, List.map_cons, hid, filled, hinner.roots,
      listed]
  · have hsum := congrArg₂ (· + ·) (hdraws.tally removed)
      (congrArg₂ (· + ·) (hinner.tally removed) (hrest.tally removed))
    rw [Nested.located, List.map_cons, List.map_append, List.sum_cons, List.sum_append, ← hsum,
      hlevels]
    simp only [Harvest.tally_append, Harvest.tally_ofLinks, Harvest.tally_ofLevel, zero_add,
      add_zero, List.map_append, List.map_cons, List.sum_append, List.sum_cons, lateTally_append]
    abel
  · simp only [hlevels, List.flatMap_append, List.flatMap_cons, List.mem_append] at hr'
    rcases hr' with (hhere | hmore) | hinside | hbody | hlater
    · obtain ⟨rfl, hend⟩ := hdraws.ends r' hhere
      exact ⟨List.mem_cons_self, hend⟩
    · obtain ⟨hmem, hend⟩ := hrest.ends r' (List.mem_append_left _ hmore)
      exact ⟨List.mem_cons_of_mem _ (List.mem_append_right _ hmem), hend⟩
    · obtain ⟨hmem, hend⟩ := hinner.ends r' (List.mem_append_right _ hinside)
      exact ⟨List.mem_cons_of_mem _ (List.mem_append_left _ hmem), hend⟩
    · obtain ⟨hmem, hend⟩ := hinner.ends r' (List.mem_append_left _ hbody)
      exact ⟨List.mem_cons_of_mem _ (List.mem_append_left _ hmem), hend⟩
    · obtain ⟨hmem, hend⟩ := hrest.ends r' (List.mem_append_right _ hlater)
      exact ⟨List.mem_cons_of_mem _ (List.mem_append_right _ hmem), hend⟩

end Step

/-- A record that is no end node is decoded alike, whatever was removed. -/
theorem decodeRecord_of_ne_finish (hg : g.UsesBuiltIns) {r : Record}
    (hfinish : g.kind? r.tag ≠ some .finish) (level : Level) (removed others : List String) :
    decodeRecord g resolver level removed r = decodeRecord g resolver level others r :=
  decodeRecord_congr hg rfl (fun h => absurd h hfinish) level

/-- What a record draws that is decoded at once, with a harvest for its body. -/
theorem draws_decoded (hg : g.UsesBuiltIns) (resolver : Resolver) (level : Level)
    (removed : List String) {r : Record} (hpseudo : g.platform.isPseudoTag r.tag = false)
    (hfinish : g.kind? r.tag ≠ some .finish) (body : Harvest) (hlevels : body.levels = [])
    (htally : body.tally = (aside g r).tally) :
    Draws g resolver level r
      ((decodeRecord g resolver level removed r).1.map Slot.ready).toList
      ((decodeRecord g resolver level removed r).2 ++ body) where
  roots := by
    intro others
    rw [nodeOf?, if_neg (Bool.eq_false_iff.mp hpseudo),
      decodeRecord_of_ne_finish hg hfinish level others removed]
    cases (decodeRecord g resolver level removed r).1 <;> rfl
  levels := by
    rw [Harvest.levels_append, hlevels,
      (decodeRecord_spec hg resolver level removed hpseudo).levels, List.append_nil]
  tally := by
    intro others
    have hlate : lateTally g resolver others
        (level, ((decodeRecord g resolver level removed r).1.map Slot.ready).toList) = 0 := by
      cases (decodeRecord g resolver level removed r).1 <;> rfl
    rw [hlate, add_zero, yield, if_neg (Bool.eq_false_iff.mp hpseudo), Harvest.tally_append,
      Harvest.tally_append, htally, decodeRecord_of_ne_finish hg hfinish level others removed]
  ends := by
    intro r' hr'
    cases hn : (decodeRecord g resolver level removed r).1 with
    | none => rw [hn] at hr'; cases hr'
    | some n =>
        rw [hn] at hr'
        cases List.mem_singleton.mp hr'

/-- A loop-start node draws its start. -/
theorem draws_start {level : Level} {r : Record}
    (hpseudo : g.platform.isPseudoTag r.tag = true) :
    Draws g resolver level r [] (.ofStart level r.id) where
  roots := fun removed => by simp [nodeOf?, hpseudo]
  levels := rfl
  tally := fun removed => by simp [yield, hpseudo, lateTally_nil]
  ends := nofun

/-- An end node draws itself, to be decoded later. -/
theorem draws_deferred {level : Level} {r : Record}
    (hpseudo : g.platform.isPseudoTag r.tag = false) (hfinish : g.kind? r.tag = some .finish) :
    Draws g resolver level r [.deferred r] .empty where
  roots := by
    intro removed
    cases hn : (decodeRecord g resolver level removed r).1 <;>
      simp [nodeOf?, hpseudo, fill?, hn]
  levels := rfl
  tally := fun removed => by simp [yield, hpseudo, aside, hfinish, lateTally, late]
  ends := by
    intro r' hr'
    obtain rfl := Slot.deferred.inj (List.mem_singleton.mp hr')
    exact ⟨rfl, hfinish, hpseudo⟩

/-- What lifting a record comes to: what the record draws, followed by what is inside it if its
body is lifted with it. -/
inductive RecordLifts (g : Registry) (d : Document) (resolver : Resolver)
    (inner : Level → List String → Blocks → Option Harvest) (level : Level) (r : Record)
    (slots : List Slot) : Harvest → Prop
  | closed {own : Harvest} : d.opened? g r = none → Draws g resolver level r slots own →
      RecordLifts g d resolver inner level r slots own
  | opened {body : Blocks} {own inside : Harvest} {removed : List String} :
      d.opened? g r = some body → Draws g resolver level r slots own →
        inner (.body r.id) removed body = some inside →
          (∀ others, ∃ n, nodeOf? g resolver others level r = some n ∧ n.id = r.id) →
            RecordLifts g d resolver inner level r slots (own ++ inside)

section Decoded

variable {level : Level} {removed others : List String} {r : Record}
  {inner : Level → List String → Blocks → Option Harvest} {body : Harvest}

/-- A loop is lifted with the body that is found for it. -/
theorem recordLifts_loop (hg : g.UsesBuiltIns) (hpseudo : g.platform.isPseudoTag r.tag = false)
    (hfinish : g.kind? r.tag ≠ some .finish)
    (hkind : (decodeRecord g resolver level removed r).1.map Node.kind = some .iteration)
    (hbody : bodyHarvest g d inner others r (decodeRecord g resolver level removed r).1 =
      some body) :
    RecordLifts g d resolver inner level r
      ((decodeRecord g resolver level removed r).1.map Slot.ready).toList
      ((decodeRecord g resolver level removed r).2 ++ body) := by
  have hdraws := draws_decoded hg resolver level removed hpseudo hfinish
  have hloop := ((decodeRecord_spec hg resolver level removed hpseudo).kind_iff hg).mp hkind
  have hused : ({ Harvest.empty with usedSections := usedSection d r } : Harvest).tally =
      (aside g r).tally := by
    rw [aside, if_pos (Or.inr hloop)]
    rfl
  rw [bodyHarvest, if_pos hkind] at hbody
  cases hblocks : d.body? r with
  | some blocks =>
      simp only [hblocks] at hbody
      obtain ⟨inside, hinside, rfl⟩ := Option.map_eq_some_iff.mp hbody
      rw [← Harvest.append_assoc]
      refine .opened (Document.opened?_eq_some_iff.mpr ⟨hloop, hblocks⟩) (hdraws _ rfl hused)
        hinside fun seen => ?_
      obtain ⟨n, hn, -⟩ := Option.map_eq_some_iff.mp hkind
      refine ⟨n, ?_, Becomes.id_eq hg ⟨hpseudo, removed, hn⟩⟩
      rw [nodeOf?, if_neg (Bool.eq_false_iff.mp hpseudo),
        decodeRecord_of_ne_finish hg hfinish level seen removed, hn]
  | none =>
      simp only [hblocks] at hbody
      obtain rfl := Option.some.inj hbody
      exact .closed (by rw [Document.opened?, hblocks, ite_self]) (hdraws _ rfl hused)

/-- The body that is stored on any other record is left aside. -/
theorem recordLifts_plain (hg : g.UsesBuiltIns) (hpseudo : g.platform.isPseudoTag r.tag = false)
    (hfinish : g.kind? r.tag ≠ some .finish)
    (hkind : (decodeRecord g resolver level removed r).1.map Node.kind ≠ some .iteration)
    (hbody : bodyHarvest g d inner others r (decodeRecord g resolver level removed r).1 =
      some body) :
    RecordLifts g d resolver inner level r
      ((decodeRecord g resolver level removed r).1.map Slot.ready).toList
      ((decodeRecord g resolver level removed r).2 ++ body) := by
  have hspec := decodeRecord_spec hg resolver level removed hpseudo
  have hloop : ¬ g.isLoop r = true := fun h => hkind ((hspec.kind_iff hg).mpr h)
  rw [bodyHarvest, if_neg hkind] at hbody
  obtain rfl := Option.some.inj hbody
  have hidle := Harvest.isIdle_ofUnliftedInner g.platform r.id r.blocks
  refine .closed (if_neg hloop)
    (draws_decoded hg resolver level removed hpseudo hfinish _ hidle.levels ?_)
  rw [aside, if_neg (not_or.mpr ⟨hfinish, hloop⟩)]

end Decoded

theorem record_draws (hg : g.UsesBuiltIns) {level : Level} {removed : List String} {r : Record}
    {inner : Level → List String → Blocks → Option Harvest} {slots : List Slot} {h : Harvest}
    (hrecord : record g d resolver inner level removed r = some (slots, h)) :
    RecordLifts g d resolver inner level r slots h := by
  unfold record at hrecord
  split at hrecord
  next hpseudo =>
      obtain ⟨rfl, rfl⟩ := Prod.mk.inj (Option.some.inj hrecord)
      exact .closed (by simp [Document.opened?, Registry.isLoop, hpseudo]) (draws_start hpseudo)
  next hplain =>
      have hpseudo := Bool.eq_false_iff.mpr hplain
      split at hrecord
      next hfinish =>
          obtain ⟨rfl, rfl⟩ := Prod.mk.inj (Option.some.inj hrecord)
          have hloop : ¬ g.isLoop r = true := by
            intro hloop
            rw [Registry.kind?_of_isLoop hg hloop] at hfinish
            cases hfinish
          exact .closed (if_neg hloop) (draws_deferred hpseudo hfinish)
      next hfinish =>
          obtain ⟨body, hbody, hpair⟩ : ∃ body,
              bodyHarvest g d inner
                (removed ++ (decodeRecord g resolver level removed r).2.removed) r
                (decodeRecord g resolver level removed r).1 = some body ∧
              (((decodeRecord g resolver level removed r).1.map Slot.ready).toList,
                (decodeRecord g resolver level removed r).2 ++ body) = (slots, h) :=
            Option.map_eq_some_iff.mp hrecord
          obtain ⟨rfl, rfl⟩ := Prod.mk.inj hpair
          by_cases hkind :
              (decodeRecord g resolver level removed r).1.map Node.kind = some .iteration
          · exact recordLifts_loop hg hpseudo hfinish hkind hbody
          · exact recordLifts_plain hg hpseudo hfinish hkind hbody

/-- The nesting of records that an inner level was lifted through, and what it comes to. -/
def Completes (g : Registry) (d : Document) (resolver : Resolver) (level : Level)
    (body : Blocks) (h : Harvest) : Prop :=
  ∃ t slots inside, d.Unrolls g body.records t ∧ Delivers g resolver level t slots inside ∧
    h = .ofLinks level body.links ++ inside ++ .ofLevel level slots

theorem records_delivers (hg : g.UsesBuiltIns)
    {inner : Level → List String → Blocks → Option Harvest}
    (hinner : ∀ level removed body h, inner level removed body = some h →
      Completes g d resolver level body h) (level : Level) (rs : List Record) :
    ∀ removed slots h, records g d resolver inner level removed rs = some (slots, h) →
      ∃ t, d.Unrolls g rs t ∧ Delivers g resolver level t slots h := by
  induction rs with
  | nil =>
      intro removed slots h hrecords
      obtain ⟨rfl, rfl⟩ := Prod.mk.inj (Option.some.inj hrecords)
      exact ⟨.nil, .nil, delivers_nil level⟩
  | cons r rs ih =>
      intro removed slots h hrecords
      obtain ⟨here, hhere, more, rest, hrecord, hmore, rfl, rfl⟩ := records_cons_eq_some hrecords
      obtain ⟨t, ht, hrest⟩ := ih _ _ _ hmore
      cases record_draws hg hrecord with
      | closed hclosed hdraws => exact ⟨.leaf r t, .leaf hclosed ht, .leaf hdraws hrest⟩
      | @opened body _ _ _ hopen hdraws hinside hnode =>
          obtain ⟨u, slots, within, hu, hdelivers, rfl⟩ := hinner _ _ _ _ hinside
          exact ⟨.loop r u t, .loop hopen hu ht, .loop body.links hnode hdraws hdelivers hrest⟩

/-- Where the bound on the depth suffices, lifting a level comes to what its nesting settles. -/
theorem within_completes (hg : g.UsesBuiltIns) (n : Nat) :
    ∀ level removed body h, within g d resolver n level removed body = some h →
      Completes g d resolver level body h := by
  induction n with
  | zero => nofun
  | succ n ih =>
      intro level removed body h hwithin
      obtain ⟨slots, inside, hrecords, rfl⟩ := within_succ_eq_some hwithin
      obtain ⟨t, ht, hdelivers⟩ := records_delivers hg ih level body.records _ _ _ hrecords
      exact ⟨t, slots, inside, ht, hdelivers, rfl⟩

/-- What decoding a record yields does not depend on what was removed before. -/
theorem snd_decodeRecord (hg : g.UsesBuiltIns) (resolver : Resolver) (level : Level)
    (removed others : List String) (r : Record) :
    (decodeRecord g resolver level removed r).2 = (decodeRecord g resolver level others r).2 := by
  cases hface : g.face? r with
  | some face =>
    obtain ⟨-, -, hdecodes⟩ := Registry.decode_of_face?_eq_some hg hface
    obtain ⟨n, hn, hnode, -⟩ := hdecodes (context g resolver removed)
    obtain ⟨n', hn', hnode', -⟩ := hdecodes (context g resolver others)
    have hid : n.id = n'.id := congrArg Face.id (hnode.trans hnode'.symm)
    rw [decodeRecord_of_ok hn, decodeRecord_of_ok hn', Harvest.ofNode, Harvest.ofNode, hid]
  | none =>
    obtain ⟨e, hfails⟩ := Registry.decode_of_face?_eq_none hg hface
    cases level with
    | root =>
      rw [decodeRecord_root_of_error (hfails _), decodeRecord_root_of_error (hfails _)]
    | body owner =>
      rw [decodeRecord_body_of_error (hfails _), decodeRecord_body_of_error (hfails _)]

/-- The end nodes of a level note what they note in any context. -/
theorem tally_finishSlots (hg : g.UsesBuiltIns) (resolver : Resolver) (level : Level)
    (others : List String) (slots : List Slot) : ∀ removed,
      (finishSlots g resolver level removed slots).2.tally =
        lateTally g resolver others (level, slots) := by
  induction slots with
  | nil => exact fun _ => rfl
  | cons slot slots ih =>
    intro removed
    cases slot with
    | ready n =>
      have hrest : (finishSlots g resolver level removed (.ready n :: slots)).2.tally = _ :=
        ih removed
      simpa [lateTally, late] using hrest
    | deferred r =>
      have hhere := snd_decodeRecord hg resolver level removed others r
      simp only [finishSlots, Harvest.tally_append, ih, hhere]
      simp [lateTally, late]

theorem tally_finishLevels (hg : g.UsesBuiltIns) (resolver : Resolver) (others : List String)
    (levels : List (Level × List Slot)) : ∀ removed,
      (finishLevels g resolver removed levels).2.tally =
        (levels.map (lateTally g resolver others)).sum := by
  induction levels with
  | nil => exact fun _ => rfl
  | cons e levels ih =>
    intro removed
    have hhere := tally_finishSlots hg resolver e.1 others e.2 removed
    simp only [finishLevels, Harvest.tally_append, ih, hhere, List.map_cons, List.sum_cons]

/-- Deferred records that decode are filled in, and nothing is removed meanwhile. -/
theorem finishSlots_eq (hg : g.UsesBuiltIns) (resolver : Resolver) (removed : List String)
    (level : Level) {slots : List Slot}
    (hends : ∀ r, .deferred r ∈ slots → (g.face? r).isSome = true) :
    (finishSlots g resolver level removed slots).1 =
        slots.filterMap (fill? g resolver removed level) ∧
      (finishSlots g resolver level removed slots).2.removed = [] := by
  induction slots with
  | nil => exact ⟨rfl, rfl⟩
  | cons slot slots ih =>
      obtain ⟨hnodes, hremoved⟩ := ih fun r hr => hends r (List.mem_cons_of_mem _ hr)
      cases slot with
      | ready n => exact ⟨congrArg (n :: ·) hnodes, hremoved⟩
      | deferred r =>
          obtain ⟨face, hface⟩ := Option.isSome_iff_exists.mp (hends r List.mem_cons_self)
          obtain ⟨-, -, hdecodes⟩ := Registry.decode_of_face?_eq_some hg hface
          obtain ⟨n, hn, -⟩ := hdecodes (context g resolver removed)
          have hrecord : decodeRecord g resolver level removed r = (some n, .ofNode level n) :=
            decodeRecord_of_ok hn
          have hstay : removed ++ (Harvest.ofNode level n).removed = removed :=
            List.append_nil removed
          simp only [finishSlots, hrecord, hstay]
          refine ⟨?_, hremoved⟩
          rw [List.filterMap_cons_some (by rw [fill?, hrecord]), hnodes]
          rfl

theorem finishLevels_eq (hg : g.UsesBuiltIns) (resolver : Resolver) (removed : List String)
    {levels : List (Level × List Slot)}
    (hends : ∀ r, .deferred r ∈ levels.flatMap Prod.snd → (g.face? r).isSome = true) :
    (finishLevels g resolver removed levels).1 = levels.map (filled g resolver removed) ∧
      (finishLevels g resolver removed levels).2.removed = [] := by
  induction levels with
  | nil => exact ⟨rfl, rfl⟩
  | cons e levels ih =>
      obtain ⟨level, slots⟩ := e
      rw [List.flatMap_cons] at hends
      obtain ⟨hnodes, hremoved⟩ := ih fun r hr => hends r (List.mem_append_right _ hr)
      obtain ⟨hhere, hremovedHere⟩ := finishSlots_eq hg resolver removed level
        fun r hr => hends r (List.mem_append_left _ hr)
      simp only [finishLevels, hremovedHere, List.append_nil]
      refine ⟨?_, ?_⟩
      · rw [hnodes, hhere]
        rfl
      · rw [Harvest.removed_append, hremovedHere, hremoved]
        rfl

/-- A record becomes the node that it is decoded to with the final removed ids. -/
theorem nodeOf?_eq_some {removed : List String} {level : Level} {r : Record} {n : Node}
    (hn : nodeOf? g resolver removed level r = some n) : Becomes g resolver level r n := by
  unfold nodeOf? at hn
  split at hn
  · cases hn
  next hpseudo => exact ⟨Bool.eq_false_iff.mpr hpseudo, removed, hn⟩

theorem map_face_nodeOf? (hg : g.UsesBuiltIns) (resolver : Resolver) (removed : List String)
    (level : Level) (r : Record) :
    (nodeOf? g resolver removed level r).map Node.face = g.survivor? level r := by
  unfold nodeOf?
  split
  next hpseudo => rw [survivor?_eq_none_of_isPseudoTag hpseudo, Option.map_none]
  next hpseudo =>
      exact (decodeRecord_spec hg resolver level removed (Bool.eq_false_iff.mpr hpseudo)).face

/-- A nesting of records settles to a nesting of nodes over the same records. -/
theorem decodes_settled (hg : g.UsesBuiltIns) (removed : List String) {rs : List Record}
    {t : Nested Record} (ht : d.Unrolls g rs t) :
    ∀ level, Decodes g resolver level t (settled g resolver removed level t) := by
  induction ht with
  | nil => exact fun _ => .nil
  | @leaf r _ t _ _ ih =>
      intro level
      have hface := map_face_nodeOf? hg resolver removed level r
      cases hn : nodeOf? g resolver removed level r with
      | none =>
          rw [hn] at hface
          simpa [settled, Nested.settle, hn] using Decodes.skip hface.symm (ih level)
      | some n =>
          simpa [settled, Nested.settle, hn] using Decodes.leaf (nodeOf?_eq_some hn) (ih level)
  | @loop r _ _ inner t hopen _ _ ihInner ih =>
      intro level
      have hloop := (Document.opened?_eq_some_iff.mp hopen).1
      obtain ⟨face, hsome, -⟩ := Registry.survivor?_of_isLoop hloop level
      rw [← map_face_nodeOf? hg resolver removed] at hsome
      obtain ⟨n, hn, -⟩ := Option.map_eq_some_iff.mp hsome
      simpa [settled, Nested.settle, hn] using
        Decodes.loop hloop (nodeOf?_eq_some hn) (ihInner (.body r.id)) (ih level)

end Lift

namespace Document

variable {g : Registry} {d : Document}

/-- Every record of the lifted lists with a decoder for end nodes decodes. -/
def EndsDecode (g : Registry) (d : Document) : Prop :=
  ∀ t, d.Unrolls g d.records t → ∀ r ∈ t.members, g.kind? r.tag = some .finish →
    ∃ ctx n, g.decode ctx r = .ok n

/-- A computation decides that all end nodes decode. -/
theorem endsDecode_of_unroll? (n : Nat)
    (hall : (d.unroll? g n d.records).any (fun t => t.members.all fun r =>
      g.kind? r.tag != some .finish || (g.face? r).isSome) = true) : d.EndsDecode g := by
  intro t ht r hr hkind
  obtain ⟨u, hfound, hends⟩ := Option.any_eq_true _ _ |>.mp hall
  obtain rfl := ht.unique (unrolls_of_unroll? n _ _ hfound)
  have hface : (g.face? r).isSome = true := by
    simpa [hkind] using List.all_eq_true.mp hends r hr
  unfold Registry.face? at hface
  split at hface
  next m hm => exact ⟨_, m, hm⟩
  next => cases hface

/-- An end node that decodes has a face. -/
theorem EndsDecode.isSome_face? (hg : g.UsesBuiltIns) (hends : d.EndsDecode g)
    {t : Nested Record} (ht : d.Unrolls g d.records t) {r : Record} (hr : r ∈ t.members)
    (hkind : g.kind? r.tag = some .finish) : (g.face? r).isSome = true := by
  obtain ⟨ctx, n, hn⟩ := hends t ht r hr hkind
  cases hface : g.face? r with
  | some _ => rfl
  | none =>
      obtain ⟨e, hfails⟩ := Registry.decode_of_face?_eq_none hg hface
      cases (hfails ctx).symm.trans hn

theorem EndsDecode.reorder (hends : d.EndsDecode g) {rs : List Record}
    (hperm : rs.Perm d.records) : { d with records := rs }.EndsDecode g := by
  intro t ht r hr hkind
  obtain ⟨u, hu, hsame⟩ := Unrolls.exists_reorders hperm ht
  exact hends u hu r (hsame.members_perm.subset hr) hkind

end Document

namespace Lifted

variable {g : Registry} {d : Document} {resolver : Resolver} {l : Lifted} {t : Nested Record}

/-- A run leaves a harvest that delivers the nesting, and the end nodes are decoded from it. -/
theorem ofDocument?_completes (hg : g.UsesBuiltIns) (hlifted : ofDocument? g d = some l)
    (hresolver : Survey.resolver? g d = some resolver) (ht : d.Unrolls g d.records t) :
    ∃ slots inside all, Lift.Delivers g resolver .root t slots inside ∧
      all.levels = inside.levels ++ [(.root, slots)] ∧
      all.tally = inside.tally + (Lift.orphans g d (Lift.openedSections d t)).tally ∧
      l = ⟨(Lift.finishLevels g resolver all.removed all.levels).1,
        all ++ (Lift.finishLevels g resolver all.removed all.levels).2⟩ := by
  obtain ⟨_, root, hfound, hroot, _, rfl, rfl⟩ := ofDocument?_eq_some hlifted
  obtain rfl := Option.some.inj (hresolver.symm.trans hfound)
  have hused : root.usedSections = Lift.openedSections d t := by
    obtain ⟨u, s, inside, hu, -, hreaps, rfl⟩ := Lift.within_lifts hg _ _ _ _ _ hroot
    obtain rfl := hu.unique ht
    simp [hreaps.usedSections, Harvest.ofLinks, Harvest.ofLevel, Harvest.empty]
  rw [hused]
  obtain ⟨u, slots, inside, hu, hdelivers, rfl⟩ := Lift.within_completes hg _ _ _ _ _ hroot
  obtain rfl := hu.unique ht
  have hidle := Lift.isIdle_orphans (g := g) (d := d) (Lift.openedSections d u)
  refine ⟨slots, inside, _, hdelivers, ?_, ?_, rfl⟩
  · simp [hidle.levels, Harvest.ofLinks, Harvest.ofLevel, Harvest.empty]
  · simp only [Harvest.tally_append, Harvest.tally_ofLinks, Harvest.tally_ofLevel, zero_add,
      add_zero]

/-- A run notes what every record yields of itself, decoded in whatever context, and what the
orphans yield. -/
theorem ofDocument?_tally (hg : g.UsesBuiltIns) (hlifted : ofDocument? g d = some l)
    (hresolver : Survey.resolver? g d = some resolver) (ht : d.Unrolls g d.records t)
    (removed : List String) :
    l.harvest.tally = ((t.located Record.id .root).map fun e =>
        (Lift.yield g resolver removed e.1 e.2).tally).sum +
      (Lift.orphans g d (Lift.openedSections d t)).tally := by
  obtain ⟨slots, inside, all, hdelivers, hlevels, htally, rfl⟩ :=
    ofDocument?_completes hg hlifted hresolver ht
  rw [← hdelivers.tally, Harvest.tally_append, Lift.tally_finishLevels hg resolver removed,
    hlevels, htally]
  simp only [List.map_append, List.map_cons, List.map_nil, List.sum_append, List.sum_cons,
    List.sum_nil, add_zero]
  abel

/-- If the end nodes of a document decode, its levels are those of the settled nesting. -/
theorem ofDocument?_settles (hg : g.UsesBuiltIns) (hends : d.EndsDecode g)
    (hlifted : ofDocument? g d = some l) (hresolver : Survey.resolver? g d = some resolver)
    (ht : d.Unrolls g d.records t) :
    l.levels = ((Lift.settled g resolver l.harvest.removed .root t).levels Node.id .root).map
        Lift.listed := by
  obtain ⟨slots, inside, all, hdelivers, hlevels, -, rfl⟩ :=
    ofDocument?_completes hg hlifted hresolver ht
  have hdecode : ∀ r, .deferred r ∈ all.levels.flatMap Prod.snd →
      (g.face? r).isSome = true := by
    intro r hr
    have hmem : .deferred r ∈ slots ++ inside.levels.flatMap Prod.snd := by
      simpa [hlevels, or_comm] using hr
    obtain ⟨hr, hkind, -⟩ := hdelivers.ends r hmem
    exact hends.isSome_face? hg ht hr hkind
  obtain ⟨hfilled, hstay⟩ := Lift.finishLevels_eq hg resolver all.removed hdecode
  have hremoved : (all ++ (Lift.finishLevels g resolver all.removed all.levels).2).removed =
      all.removed := by
    rw [Harvest.removed_append, hstay, List.append_nil]
  rw [hremoved, hfilled, hlevels, List.map_append, hdelivers.bodies, Nested.levels,
    List.map_append, List.map_singleton, List.map_singleton, Lift.filled, hdelivers.roots]
  rfl

end Lifted

end WorkflowGraph
