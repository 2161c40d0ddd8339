/-
# What a run notes

A run notes which ids it removed, its findings, the placeholders, the dropped blocks and
the number of decoded nodes. What a record contributes does not depend on what was removed
before it, because an end node leaves out inputs and nothing else. So the notes of a run
are, up to their order, those of its records taken one by one and those of the sections
that no loop opens. In particular the dropped blocks are exactly the records that stand in
a body without becoming nodes, and each of them has a finding.
-/

import WorkflowGraph.Proofs.BlockLists

namespace WorkflowGraph

namespace Harvest

/-- Harvests one after another. -/
def join (hs : List Harvest) : Harvest :=
  hs.foldr (· ++ ·) .empty

theorem join_cons (h : Harvest) (hs : List Harvest) : join (h :: hs) = h ++ join hs :=
  rfl

theorem tally_join (hs : List Harvest) : (join hs).tally = (hs.map tally).sum := by
  induction hs with
  | nil => rfl
  | cons h hs ih => rw [join_cons, tally_append, ih, List.map_cons, List.sum_cons]

end Harvest

namespace Lifted

variable {g : Registry} {d : Document} {resolver : Resolver} {l : Lifted} {t : Nested Record}

/-- The harvests of all records of a nesting, each decoded as if nothing had been removed. -/
def yields (g : Registry) (resolver : Resolver) (t : Nested Record) : List Harvest :=
  (t.located Record.id .root).map fun e => Lift.yield g resolver [] e.1 e.2

/-- A run notes what the joined harvests of its records note, and what the orphans note. -/
theorem ofDocument?_tally_joined (hg : g.UsesBuiltIns) (hlifted : ofDocument? g d = some l)
    (hresolver : Survey.resolver? g d = some resolver) (ht : d.Unrolls g d.records t) :
    l.harvest.tally =
      (Harvest.join (yields g resolver t) ++
        Lift.orphans g d (Lift.openedSections d t)).tally := by
  rw [ofDocument?_tally hg hlifted hresolver ht [], Harvest.tally_append, Harvest.tally_join,
    yields, List.map_map]
  rfl

end Lifted

/-! ## Notes of one kind -/

/-- A kind of notes, collected in order: what it says of the links of a body that is dropped,
given the owner of the body, and of its records. -/
structure Harvest.Collects (p : Platform) {β : Type} (notes : Harvest → List β)
    (ofLinks : String → List Link → List β) (ofRecord : Record → List β) : Prop where
  empty : notes .empty = []
  append : ∀ a b, notes (a ++ b) = notes a ++ notes b
  links : ∀ owner links, notes (.ofLinks (.body owner) links) = ofLinks owner links
  start : ∀ r, p.isPseudoTag r.tag = true →
    notes { Harvest.empty with removed := [r.id] } = ofRecord r
  block : ∀ owner r, p.isPseudoTag r.tag = false →
    notes (ofDropped owner r (orphanReason owner)) = ofRecord r

/-- What a kind of notes says of some bodies that are dropped. -/
def Blocks.notes {β : Type} (ofLinks : String → List Link → List β) (ofRecord : Record → List β)
    (bodies : List (String × Blocks)) : List β :=
  bodies.flatMap fun entry => ofLinks entry.1 entry.2.links ++ entry.2.records.flatMap ofRecord

theorem Blocks.notes_append {β : Type} (ofLinks : String → List Link → List β)
    (ofRecord : Record → List β) (a b : List (String × Blocks)) :
    notes ofLinks ofRecord (a ++ b) = notes ofLinks ofRecord a ++ notes ofLinks ofRecord b :=
  List.flatMap_append

namespace Harvest

variable {p : Platform} {β : Type} {notes : Harvest → List β}
  {ofLinks : String → List Link → List β} {ofRecord : Record → List β}
  (hnotes : Collects p notes ofLinks ofRecord)

include hnotes

theorem Collects.join (hs : List Harvest) : notes (join hs) = hs.flatMap notes := by
  induction hs with
  | nil => exact hnotes.empty
  | cons h hs ih => rw [join_cons, hnotes.append, ih, List.flatMap_cons]

mutual
/-- A body that is dropped is noted with the bodies that go with it. -/
theorem notes_ofUnlifted (owner : String) : (b : Blocks) →
    (notes (ofUnlifted p owner b)).Perm
      (Blocks.notes ofLinks ofRecord (Blocks.droppedBodies p owner (some b)))
  | ⟨records, links⟩ => by
    have hrecords := notes_ofUnliftedRecords owner records
    rw [ofUnlifted, Blocks.droppedBodies, hnotes.append, hnotes.links, Blocks.notes,
      List.flatMap_cons, List.append_assoc]
    exact hrecords.append_left _

theorem notes_ofUnliftedRecords (owner : String) : (rs : List Record) →
    (notes (ofUnliftedRecords p owner rs)).Perm
      (rs.flatMap ofRecord ++ Blocks.notes ofLinks ofRecord (Record.droppedBodies p rs))
  | [] => by
    rw [ofUnliftedRecords, Record.droppedBodies, hnotes.empty]
    exact List.Perm.nil
  | ⟨id, tag, title, params, inputs, outputs, blocks, presentation⟩ :: rs => by
    have hinner := notes_ofUnliftedInner id blocks
    have hrest := notes_ofUnliftedRecords owner rs
    rw [ofUnliftedRecords, Record.droppedBodies, Blocks.notes_append, List.flatMap_cons]
    split
    next hpseudo =>
      have hhere := hnotes.start
        ⟨id, tag, title, params, inputs, outputs, blocks, presentation⟩ hpseudo
      rw [hnotes.append, ← hhere, List.append_assoc]
      exact hrest.append_left _
    next hplain =>
      have hhere := hnotes.block owner
        ⟨id, tag, title, params, inputs, outputs, blocks, presentation⟩
        (Bool.eq_false_iff.mpr hplain)
      rw [hnotes.append, hnotes.append, ← hhere, List.append_assoc,
        List.append_assoc]
      refine List.Perm.append_left _ ((hinner.append hrest).trans ?_)
      exact List.perm_append_comm_assoc _ _ _

theorem notes_ofUnliftedInner (owner : String) : (blocks : Option Blocks) →
    (notes (ofUnliftedInner p owner blocks)).Perm
      (Blocks.notes ofLinks ofRecord (Blocks.droppedBodies p owner blocks))
  | none => by
    rw [ofUnliftedInner, Blocks.droppedBodies, hnotes.empty]
    exact List.Perm.nil
  | some b => by
    rw [ofUnliftedInner]
    exact notes_ofUnlifted owner b
end

end Harvest

namespace Lift

variable {g : Registry} {d : Document} {resolver : Resolver}

/-- What a record of a level yields of itself, without what goes with it. -/
def own (g : Registry) (resolver : Resolver) (level : Level) (r : Record) : Harvest :=
  if g.platform.isPseudoTag r.tag then .ofStart level r.id
  else (decodeRecord g resolver level [] r).2

/-- What a record can yield of itself: a loop-start record is removed, a record that decodes
becomes a node, and one that does not is replaced on the root and left out of a body. -/
inductive Owns (g : Registry) (level : Level) (r : Record) : Harvest → Prop
  | start : g.platform.isPseudoTag r.tag = true → Owns g level r (.ofStart level r.id)
  | node {n : Node} : g.platform.isPseudoTag r.tag = false → (g.face? r).isSome = true →
      Owns g level r (.ofNode level n)
  | replaced {n : Node} {e : DecodeError} : g.platform.isPseudoTag r.tag = false →
      g.face? r = none → level = .root → Owns g level r (.ofPlaceholder r n e)
  | leftOut {owner reason : String} : g.platform.isPseudoTag r.tag = false →
      g.face? r = none → level = .body owner → Owns g level r (.ofDropped owner r reason)

theorem owns_own (hg : g.UsesBuiltIns) (resolver : Resolver) (level : Level) (r : Record) :
    Owns g level r (own g resolver level r) := by
  unfold own
  split
  next hpseudo => exact .start hpseudo
  next hplain =>
    have hpseudo := Bool.eq_false_iff.mpr hplain
    cases hface : g.face? r with
    | some face =>
      obtain ⟨-, -, hdecodes⟩ := Registry.decode_of_face?_eq_some hg hface
      obtain ⟨n, hn, -⟩ := hdecodes (context g resolver [])
      rw [decodeRecord_of_ok hn]
      exact .node hpseudo (Option.isSome_iff_exists.mpr ⟨face, hface⟩)
    | none =>
      obtain ⟨e, hfails⟩ := Registry.decode_of_face?_eq_none hg hface
      cases level with
      | root =>
        rw [decodeRecord_root_of_error (hfails _)]
        exact .replaced hpseudo hface rfl
      | body owner =>
        rw [decodeRecord_body_of_error (hfails _)]
        exact .leftOut hpseudo hface rfl

variable {β : Type} {notes : Harvest → List β}
  {ofLinks : String → List Link → List β} {ofRecord : Record → List β}

theorem notes_aside (hnotes : Harvest.Collects g.platform notes ofLinks ofRecord) {r : Record}
    (hplain : g.platform.isPseudoTag r.tag = false) :
    (notes (aside g r)).Perm (Blocks.notes ofLinks ofRecord (Document.droppedAt g r)) := by
  unfold aside Document.droppedAt
  simp only [hplain, Bool.false_eq_true, false_or]
  split
  · rw [hnotes.empty]
    exact List.Perm.nil
  · exact Harvest.notes_ofUnliftedInner hnotes r.id r.blocks

theorem notes_yield (hnotes : Harvest.Collects g.platform notes ofLinks ofRecord)
    (resolver : Resolver) (level : Level) (r : Record) :
    (notes (yield g resolver [] level r)).Perm
      (notes (own g resolver level r) ++
        Blocks.notes ofLinks ofRecord (Document.droppedAt g r)) := by
  unfold yield own
  split
  next hpseudo =>
    have hnone : Document.droppedAt g r = [] := if_pos (Or.inl hpseudo)
    rw [hnone]
    exact List.Perm.of_eq (List.append_nil _).symm
  next hplain =>
    rw [hnotes.append]
    exact (notes_aside hnotes (Bool.eq_false_iff.mpr hplain)).append_left _

theorem notes_orphans (hnotes : Harvest.Collects g.platform notes ofLinks ofRecord)
    (t : Nested Record) : (notes (orphans g d (openedSections d t))).Perm
      (Blocks.notes ofLinks ofRecord ((d.unopened t).flatMap fun entry =>
        Blocks.droppedBodies g.platform entry.1 (some entry.2))) := by
  unfold orphans Document.unopened
  induction d.sections.entries.filter fun entry => !(openedSections d t).contains entry.1 with
  | nil =>
    rw [List.foldr_nil, hnotes.empty]
    exact List.Perm.nil
  | cons entry rest ih =>
    rw [List.foldr_cons, List.flatMap_cons, hnotes.append, Blocks.notes_append]
    exact (Harvest.notes_ofUnlifted hnotes entry.1 entry.2).append ih

end Lift

namespace Lifted

variable {g : Registry} {d : Document} {resolver : Resolver} {l : Lifted} {t : Nested Record}
  {β : Type} {notes : Harvest → List β} {ofLinks : String → List Link → List β}
  {ofRecord : Record → List β}

/-- A run notes what its records yield of themselves, and the records of the bodies that are
dropped, if the tally of a harvest holds the notes up to their order. -/
theorem ofDocument?_notes (hg : g.UsesBuiltIns) (hlifted : ofDocument? g d = some l)
    (hresolver : Survey.resolver? g d = some resolver) (ht : d.Unrolls g d.records t)
    (hnotes : Harvest.Collects g.platform notes ofLinks ofRecord)
    (htallied : ∀ a b : Harvest, a.tally = b.tally → (notes a).Perm (notes b)) :
    (notes l.harvest).Perm
      (((t.located Record.id .root).flatMap fun e => notes (Lift.own g resolver e.1 e.2)) ++
        Blocks.notes ofLinks ofRecord (d.droppedBodies g t)) := by
  have htally := htallied _ _ (ofDocument?_tally_joined hg hlifted hresolver ht)
  have hmembers : ((yields g resolver t).flatMap notes).Perm
      (((t.located Record.id .root).flatMap fun e => notes (Lift.own g resolver e.1 e.2)) ++
        Blocks.notes ofLinks ofRecord (t.members.flatMap (Document.droppedAt g))) := by
    rw [yields, List.flatMap_map, ← t.map_snd_located Record.id .root, List.flatMap_map,
      Blocks.notes, List.flatMap_assoc]
    exact (List.Perm.flatMap_left _ fun e _ => Lift.notes_yield hnotes resolver e.1 e.2).trans
      (List.flatMap_append_perm _ _ _).symm
  have horphans := Lift.notes_orphans (d := d) hnotes t
  rw [hnotes.append, hnotes.join] at htally
  rw [Document.droppedBodies, Blocks.notes_append, ← List.append_assoc]
  exact htally.trans (hmembers.append horphans)

end Lifted

/-! ## Dropped blocks -/

/-- The id and the tag that a finding about a dropped block names. -/
def Diagnostic.droppedBlock? : Diagnostic → Option (String × String)
  | .droppedBlock _ node tag _ => some (node, tag)
  | _ => none

/-- The id and the tag of a record. -/
def Record.label (r : Record) : String × String :=
  (r.id, r.tag)

/-- The records of a body that are reported when it is dropped. -/
def Blocks.reported (p : Platform) (b : Blocks) : List Record :=
  b.records.filter fun r => !p.isPseudoTag r.tag

namespace Harvest

/-- The ids and tags that the findings about dropped blocks name. -/
def drops (h : Harvest) : List (String × String) :=
  h.report.diagnostics.filterMap Diagnostic.droppedBlock?

/-- A dropped record is listed. -/
theorem collects_droppedBlocks (p : Platform) : Collects p (fun h => h.report.droppedBlocks)
    (fun _ _ => []) fun r => if p.isPseudoTag r.tag then [] else [r.id] where
  empty := rfl
  append := fun _ _ => rfl
  links := fun _ _ => rfl
  start := fun r hpseudo => by rw [if_pos hpseudo]; rfl
  block := fun owner r hplain => by rw [if_neg (Bool.eq_false_iff.mp hplain)]; rfl

/-- The finding for a dropped record names it. -/
theorem collects_drops (p : Platform) : Collects p drops (fun _ _ => [])
    fun r => if p.isPseudoTag r.tag then [] else [r.label] where
  empty := rfl
  append := fun _ _ => List.filterMap_append
  links := fun _ _ => rfl
  start := fun r hpseudo => by rw [if_pos hpseudo]; rfl
  block := fun owner r hplain => by rw [if_neg (Bool.eq_false_iff.mp hplain)]; rfl

end Harvest

namespace Document

variable (g : Registry) (d : Document)

/-- A record of a level is left out: it stands in a body and cannot be decoded. -/
def isLeftOut (e : Level × Record) : Bool :=
  !g.platform.isPseudoTag e.2.tag && (g.survivor? e.1 e.2).isNone

/-- The records of a nesting that are left out. -/
def leftOut (t : Nested Record) : List Record :=
  ((t.located Record.id .root).filter (isLeftOut g)).map Prod.snd

/-- The records of a document that are reported as dropped: those left out of a lifted body,
and those of the bodies that are dropped. -/
def droppedRecords (t : Nested Record) : List Record :=
  leftOut g t ++ (d.droppedBodies g t).flatMap fun entry => entry.2.reported g.platform

end Document

/-- A record drops itself if it is left out. -/
theorem Lift.Owns.drops {g : Registry} {level : Level} {r : Record} {h : Harvest}
    (hown : Owns g level r h) :
    h.report.droppedBlocks = (if Document.isLeftOut g (level, r) then [r.id] else []) ∧
      h.drops = if Document.isLeftOut g (level, r) then [r.label] else [] := by
  cases hown with
  | start hpseudo =>
    have hkept : Document.isLeftOut g (level, r) = false := by
      simp [Document.isLeftOut, hpseudo]
    rw [hkept]
    exact ⟨rfl, rfl⟩
  | node hplain hface =>
    obtain ⟨face, hface⟩ := Option.isSome_iff_exists.mp hface
    have hkept : Document.isLeftOut g (level, r) = false := by
      simp [Document.isLeftOut, Registry.survivor?, hplain, hface]
    rw [hkept]
    exact ⟨rfl, rfl⟩
  | replaced hplain hface hroot =>
    have hkept : Document.isLeftOut g (level, r) = false := by
      simp [Document.isLeftOut, Registry.survivor?, hplain, hface, hroot]
    rw [hkept]
    exact ⟨rfl, rfl⟩
  | leftOut hplain hface hbody =>
    have hleft : Document.isLeftOut g (level, r) = true := by
      simp [Document.isLeftOut, Registry.survivor?, hplain, hface, hbody]
    rw [hleft]
    exact ⟨rfl, rfl⟩

/-- Keeping one note for each member of some kind is the same as picking these members. -/
theorem flatMap_ite_singleton {α β : Type} (keep : α → Bool) (f : α → β) (l : List α) :
    (l.flatMap fun a => if keep a then [f a] else []) = (l.filter keep).map f := by
  induction l with
  | nil => rfl
  | cons a l ih =>
    rw [List.flatMap_cons, ih, List.filter_cons]
    split <;> rfl

namespace Lifted

variable {g : Registry} {d : Document} {resolver : Resolver} {l : Lifted} {t : Nested Record}

/-- Notes on the records of one sort, and on the records of the bodies that are dropped. -/
theorem ofDocument?_recordNotes {β : Type} {notes : Harvest → List β} {key : Record → β}
    {q : Level × Record → Bool} (hg : g.UsesBuiltIns) (hlifted : ofDocument? g d = some l)
    (ht : d.Unrolls g d.records t)
    (hnotes : Harvest.Collects g.platform notes (fun _ _ => []) fun r =>
      if g.platform.isPseudoTag r.tag then [] else [key r])
    (htallied : ∀ a b : Harvest, a.tally = b.tally → (notes a).Perm (notes b))
    (hown : ∀ level r h, Lift.Owns g level r h →
      notes h = if q (level, r) then [key r] else []) :
    (notes l.harvest).Perm (((((t.located Record.id .root).filter q).map Prod.snd) ++
      (d.droppedBodies g t).flatMap fun entry => entry.2.reported g.platform).map key) := by
  obtain ⟨resolver, _, hresolver, -⟩ := ofDocument?_eq_some hlifted
  have hall := ofDocument?_notes hg hlifted hresolver ht hnotes htallied
  have hmembers : ((t.located Record.id .root).flatMap fun e =>
      notes (Lift.own g resolver e.1 e.2)) =
        (((t.located Record.id .root).filter q).map Prod.snd).map key := by
    have hnoted : ∀ e : Level × Record, notes (Lift.own g resolver e.1 e.2) =
        if q e then [key e.2] else [] :=
      fun e => hown e.1 e.2 _ (Lift.owns_own hg resolver e.1 e.2)
    rw [funext hnoted, flatMap_ite_singleton, List.map_map]
    rfl
  have hbodies : Blocks.notes (fun _ _ => [])
      (fun r => if g.platform.isPseudoTag r.tag then [] else [key r]) (d.droppedBodies g t) =
        ((d.droppedBodies g t).flatMap fun entry => entry.2.reported g.platform).map key := by
    rw [Blocks.notes, List.map_flatMap]
    refine List.flatMap_congr fun entry _ => ?_
    rw [Blocks.reported, List.nil_append, ← flatMap_ite_singleton]
    refine List.flatMap_congr fun r _ => ?_
    cases g.platform.isPseudoTag r.tag <;> rfl
  rw [hmembers, hbodies, ← List.map_append] at hall
  exact hall

/-- A run drops the records that it leaves out and those of the bodies that it drops, and each
of them has a finding. -/
theorem ofDocument?_drops (hg : g.UsesBuiltIns) (hlifted : ofDocument? g d = some l)
    (ht : d.Unrolls g d.records t) :
    l.harvest.report.droppedBlocks.Perm ((d.droppedRecords g t).map Record.id) ∧
      l.harvest.drops.Perm ((d.droppedRecords g t).map Record.label) := by
  constructor
  · refine ofDocument?_recordNotes hg hlifted ht (Harvest.collects_droppedBlocks _)
      (fun a b htally => ?_) fun _ _ _ hown => hown.drops.1
    exact Multiset.coe_eq_coe.mp (congrArg (fun noted => noted.2.2.2.1) htally)
  · refine ofDocument?_recordNotes hg hlifted ht (Harvest.collects_drops _)
      (fun a b htally => ?_) fun _ _ _ hown => hown.drops.2
    exact (Multiset.coe_eq_coe.mp (congrArg (fun noted => noted.2.1) htally)).filterMap _

end Lifted

/-! ## Removed and replaced records -/

namespace Document

variable (g : Registry) (d : Document)

/-- A record of a lifted list is removed: it is a loop-start record, or it cannot be decoded. -/
def isGone (r : Record) : Bool :=
  g.platform.isPseudoTag r.tag || (g.face? r).isNone

/-- The records whose ids a run notes as removed. -/
def removedRecords (t : Nested Record) : List Record :=
  t.members.filter (isGone g) ++ (d.droppedBodies g t).flatMap fun entry => entry.2.records

/-- A record of a level is replaced: it stands on the root and cannot be decoded. -/
def isReplaced (e : Level × Record) : Bool :=
  e.1 == .root && !g.platform.isPseudoTag e.2.tag && (g.face? e.2).isNone

/-- The records of a nesting that become placeholders. -/
def replacedRecords (t : Nested Record) : List Record :=
  ((t.located Record.id .root).filter (isReplaced g)).map Prod.snd

end Document

/-- What a record yields of itself says whether it is removed, and whether it is replaced. -/
theorem Lift.Owns.removed {g : Registry} {level : Level} {r : Record} {h : Harvest}
    (hown : Owns g level r h) :
    h.removed = (if Document.isGone g r then [r.id] else []) ∧
      h.report.placeholders = if Document.isReplaced g (level, r) then [r.id] else [] := by
  cases hown with
  | start hpseudo =>
    have hgone : Document.isGone g r = true := by simp [Document.isGone, hpseudo]
    have hkept : Document.isReplaced g (level, r) = false := by
      simp [Document.isReplaced, hpseudo]
    rw [hgone, hkept]
    exact ⟨rfl, rfl⟩
  | node hplain hface =>
    have hstays : Document.isGone g r = false := by
      simp [Document.isGone, hplain, hface]
    have hkept : Document.isReplaced g (level, r) = false := by
      simp [Document.isReplaced, hface]
    rw [hstays, hkept]
    exact ⟨rfl, rfl⟩
  | replaced hplain hface hroot =>
    have hgone : Document.isGone g r = true := by simp [Document.isGone, hface]
    have hreplaced : Document.isReplaced g (level, r) = true := by
      simp [Document.isReplaced, hplain, hface, hroot]
    rw [hgone, hreplaced]
    exact ⟨rfl, rfl⟩
  | leftOut hplain hface hbody =>
    have hgone : Document.isGone g r = true := by simp [Document.isGone, hface]
    have hkept : Document.isReplaced g (level, r) = false := by
      simp [Document.isReplaced, hbody]
    rw [hgone, hkept]
    exact ⟨rfl, rfl⟩

namespace Harvest

theorem collects_removed (p : Platform) :
    Collects p Harvest.removed (fun _ _ => []) fun r => [r.id] where
  empty := rfl
  append := fun _ _ => rfl
  links := fun _ _ => rfl
  start := fun _ _ => rfl
  block := fun _ _ _ => rfl

theorem collects_placeholders (p : Platform) :
    Collects p (fun h => h.report.placeholders) (fun _ _ => []) fun _ => [] where
  empty := rfl
  append := fun _ _ => rfl
  links := fun _ _ => rfl
  start := fun _ _ => rfl
  block := fun _ _ _ => rfl

end Harvest

namespace Lifted

variable {g : Registry} {d : Document} {l : Lifted} {t : Nested Record}

/-- A run removes the records that are gone and all records of the bodies that it drops. -/
theorem ofDocument?_removed (hg : g.UsesBuiltIns) (hlifted : ofDocument? g d = some l)
    (ht : d.Unrolls g d.records t) :
    l.harvest.removed.Perm ((d.removedRecords g t).map Record.id) := by
  obtain ⟨resolver, _, hresolver, -⟩ := ofDocument?_eq_some hlifted
  have hall := ofDocument?_notes hg hlifted hresolver ht (Harvest.collects_removed _)
    fun a b htally => Multiset.coe_eq_coe.mp (congrArg Prod.fst htally)
  have hown : ∀ e : Level × Record, (Lift.own g resolver e.1 e.2).removed =
      if Document.isGone g e.2 then [e.2.id] else [] :=
    fun e => (Lift.owns_own hg resolver e.1 e.2).removed.1
  have hmembers : ((t.located Record.id .root).flatMap fun e =>
      (Lift.own g resolver e.1 e.2).removed) =
        (t.members.filter (Document.isGone g)).map Record.id := by
    rw [funext hown, ← t.map_snd_located Record.id .root, ← flatMap_ite_singleton,
      List.flatMap_map]
  have hbodies : Blocks.notes (fun _ _ => []) (fun r => [r.id]) (d.droppedBodies g t) =
      ((d.droppedBodies g t).flatMap fun entry => entry.2.records).map Record.id := by
    rw [Blocks.notes, List.map_flatMap]
    refine List.flatMap_congr fun entry _ => ?_
    rw [List.nil_append, List.map_eq_flatMap]
  rw [hmembers, hbodies, ← List.map_append] at hall
  exact hall

/-- A run notes the records that it replaces by placeholders. -/
theorem ofDocument?_placeholders (hg : g.UsesBuiltIns) (hlifted : ofDocument? g d = some l)
    (ht : d.Unrolls g d.records t) :
    l.harvest.report.placeholders.Perm ((Document.replacedRecords g t).map Record.id) := by
  obtain ⟨resolver, _, hresolver, -⟩ := ofDocument?_eq_some hlifted
  have hall := ofDocument?_notes hg hlifted hresolver ht (Harvest.collects_placeholders _)
    fun a b htally => Multiset.coe_eq_coe.mp (congrArg (fun noted => noted.2.2.1) htally)
  have hown : ∀ e : Level × Record, (Lift.own g resolver e.1 e.2).report.placeholders =
      if Document.isReplaced g e then [e.2.id] else [] :=
    fun e => (Lift.owns_own hg resolver e.1 e.2).removed.2
  have hbodies : Blocks.notes (fun _ _ => ([] : List String)) (fun _ => [])
      (d.droppedBodies g t) = [] := by
    simp [Blocks.notes]
  rw [funext hown, flatMap_ite_singleton, hbodies, List.append_nil] at hall
  rw [Document.replacedRecords, List.map_map]
  exact hall

end Lifted

end WorkflowGraph
