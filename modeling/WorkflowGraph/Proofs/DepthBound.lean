/-
# The bound on the depth

The survey and the lift stop at a bound on the number of levels that enclose one another.
A chain of loops, each inside the one before, descends into a body stored on a record or
into a section. If no chain uses a section twice, every chain is shorter than the bound:
each section adds one level and the bodies stored inside it add no more than their depth.

The lists that a pass enters form a nesting of records. Both passes end exactly if they may
enter as many lists inside one another as their nesting is deep, and then the bound has no
part in what they return.
-/

import Mathlib.Data.List.Perm.Subperm
import WorkflowGraph.Proofs.SurveyedLoops

namespace WorkflowGraph

/-- The greatest number of lists inside one another, the outermost one not counted. -/
def Nested.height {α : Type} : Nested α → Nat
  | .nil => 0
  | .leaf _ rest => rest.height
  | .loop _ inner rest => max (inner.height + 1) rest.height

namespace Document

/-- The lists of records at the end of a chain of records with an iteration tag, each in
the located body of the one before, with the sections that the chain uses. -/
inductive Chain (g : Registry) (d : Document) : List String → List Record → Prop
  | root : Chain g d [] d.records
  | inside {used : List String} {rs : List Record} {r : Record} {body : Blocks} :
      Chain g d used rs → r ∈ rs → g.kind? r.tag = some .iteration → d.body? r = some body →
        Chain g d (Lift.usedSection d r ++ used) body.records

/-- No chain of loops uses a section twice. -/
def SectionsAcyclic (g : Registry) (d : Document) : Prop :=
  ∀ used rs, d.Chain g used rs → used.Nodup

variable {g : Registry} {d : Document}

theorem Chain.used_subset {used : List String} {rs : List Record} (hchain : d.Chain g used rs) :
    used ⊆ d.sections.keys := by
  induction hchain with
  | root => exact List.nil_subset _
  | @inside used rs r body _ _ _ _ ih =>
      refine List.append_subset.mpr ⟨?_, ih⟩
      unfold Lift.usedSection
      split
      next hused =>
          intro id hid
          obtain rfl := List.mem_singleton.mp hid
          obtain ⟨entry, hentry, hkey⟩ := List.any_eq_true.mp (Bool.and_eq_true_iff.mp hused).2
          exact List.mem_map.mpr ⟨entry, hentry, by simpa using hkey⟩
      next => exact List.nil_subset _

/-- A document without sections has no chain that uses one twice. -/
theorem sectionsAcyclic_of_eq_nil (hnone : d.sections.entries = []) : d.SectionsAcyclic g := by
  intro used rs hchain
  have hsub := hchain.used_subset
  rw [Table.keys, hnone] at hsub
  obtain rfl := List.subset_nil.mp hsub
  exact .nil

/-- A chain uses at most as many sections as there are. -/
theorem Chain.length_used_le (hacyclic : d.SectionsAcyclic g) {used : List String}
    {rs : List Record} (hchain : d.Chain g used rs) : used.length ≤ d.sections.entries.length := by
  have hle := (List.subperm_of_subset (hacyclic _ _ hchain) hchain.used_subset).length_le
  rwa [Table.keys, Fields.keys, List.length_map] at hle

theorem inlineDepth_le_of_mem {rs : List Record} {r : Record} {body : Blocks} (hr : r ∈ rs)
    (hblocks : r.blocks = some body) :
    Record.inlineDepth body.records < Record.inlineDepth rs := by
  induction rs with
  | nil => cases hr
  | cons first rs ih =>
      obtain ⟨id, tag, title, params, inputs, outputs, blocks, presentation⟩ := first
      rw [Record.inlineDepth]
      rcases List.mem_cons.mp hr with rfl | hlater
      · obtain rfl : blocks = some body := hblocks
        obtain ⟨records, links⟩ := body
        rw [Blocks.inlineDepth]
        dsimp only
        omega
      · have hrest := ih hlater
        omega

private theorem le_foldl_max (entries : Fields Blocks) :
    ∀ start, start ≤ entries.foldl (fun n entry => max n (Record.inlineDepth entry.2.records))
        start ∧
      ∀ entry ∈ entries, Record.inlineDepth entry.2.records ≤
        entries.foldl (fun n entry => max n (Record.inlineDepth entry.2.records)) start := by
  induction entries with
  | nil => exact fun start => ⟨Nat.le_refl _, nofun⟩
  | cons first entries ih =>
      intro start
      obtain ⟨hstart, hrest⟩ := ih (max start (Record.inlineDepth first.2.records))
      rw [List.foldl_cons]
      refine ⟨by omega, fun entry hentry => ?_⟩
      rcases List.mem_cons.mp hentry with rfl | hlater
      · omega
      · exact hrest entry hlater

theorem inlineDepth_records_le (d : Document) : Record.inlineDepth d.records ≤ d.inlineDepth :=
  (le_foldl_max d.sections.entries _).1

theorem inlineDepth_section_le {id : String} {body : Blocks}
    (hbody : Table.get? id d.sections = some body) :
    Record.inlineDepth body.records ≤ d.inlineDepth :=
  (le_foldl_max d.sections.entries _).2 _ (Table.mem_of_get?_eq_some hbody)

/-- What is left of the bound at the end of a chain. -/
def depthLeft (d : Document) (used : List String) (rs : List Record) : Nat :=
  (d.sections.entries.length - used.length) * (1 + d.inlineDepth) + Record.inlineDepth rs + 1

/-- One more loop leaves less of the bound. -/
theorem Chain.depthLeft_lt (hacyclic : d.SectionsAcyclic g) {used : List String}
    {rs : List Record} {r : Record} {body : Blocks} (hchain : d.Chain g used rs) (hr : r ∈ rs)
    (hkind : g.kind? r.tag = some .iteration) (hbody : d.body? r = some body) :
    d.depthLeft (Lift.usedSection d r ++ used) body.records < d.depthLeft used rs := by
  have hlength := (hchain.inside hr hkind hbody).length_used_le hacyclic
  cases hblocks : r.blocks with
  | some own =>
      have hown : body = own := by simpa [body?, hblocks, eq_comm] using hbody
      have hdeeper := inlineDepth_le_of_mem hr (hown ▸ hblocks)
      have hunused : Lift.usedSection d r = [] := by simp [Lift.usedSection, hblocks]
      rw [hunused, List.nil_append, depthLeft, depthLeft]
      omega
  | none =>
      have hsection : Table.get? r.id d.sections = some body := by
        simpa [body?, hblocks] using hbody
      have hused : Lift.usedSection d r = [r.id] := by
        simp [Lift.usedSection, hblocks, Table.hasKey_eq_isSome_get?, hsection]
      have hdepth := inlineDepth_section_le hsection
      rw [hused, List.singleton_append, List.length_cons] at hlength
      rw [hused, List.singleton_append, depthLeft, depthLeft, List.length_cons]
      obtain ⟨k, hk⟩ : ∃ k, d.sections.entries.length - used.length = k + 1 :=
        ⟨d.sections.entries.length - used.length - 1, by omega⟩
      have hnext : d.sections.entries.length - (used.length + 1) = k := by omega
      rw [hk, hnext, Nat.succ_mul]
      omega

theorem depthLeft_root_le (d : Document) : d.depthLeft [] d.records ≤ d.depthBound := by
  have hroot := d.inlineDepth_records_le
  rw [depthLeft, depthBound, List.length_nil, Nat.sub_zero, Nat.add_mul, Nat.one_mul]
  omega

/-- The nesting of a list of records for a pass that enters the bodies of some of them:
`enters` tells which body is entered with a record of a level, if any. -/
inductive Descends (enters : Level → Record → Option Blocks) :
    Level → List Record → Nested Record → Prop
  | nil {level : Level} : Descends enters level [] .nil
  | pass {level : Level} {r : Record} {rs : List Record} {t : Nested Record} :
      enters level r = none → Descends enters level rs t →
        Descends enters level (r :: rs) (.leaf r t)
  | enter {level : Level} {r : Record} {rs : List Record} {body : Blocks}
      {inner t : Nested Record} :
      enters level r = some body → Descends enters (.body r.id) body.records inner →
        Descends enters level rs t → Descends enters level (r :: rs) (.loop r inner t)

section Descends

variable {enters : Level → Record → Option Blocks}

theorem exists_descends_of_forall {n : Nat} (level : Level) {rs : List Record}
    (hinner : ∀ r ∈ rs, ∀ body, enters level r = some body →
      ∃ inner, Descends enters (.body r.id) body.records inner ∧ inner.height < n) :
    ∃ t, Descends enters level rs t ∧ t.height ≤ n := by
  induction rs with
  | nil => exact ⟨.nil, .nil, Nat.zero_le _⟩
  | cons r rs ih =>
      obtain ⟨hhere, hrest⟩ := List.forall_mem_cons.mp hinner
      obtain ⟨t, ht, hheight⟩ := ih hrest
      cases henters : enters level r with
      | none => exact ⟨.leaf r t, .pass henters ht, hheight⟩
      | some body =>
          obtain ⟨inner, hinner, hless⟩ := hhere body henters
          exact ⟨.loop r inner t, .enter henters hinner ht, Nat.max_le.mpr ⟨hless, hheight⟩⟩

variable (hloops : ∀ level r body, enters level r = some body →
  g.kind? r.tag = some .iteration ∧ d.body? r = some body)

include hloops

/-- A pass that enters only located bodies of iteration records goes no deeper, from the end of
a chain, than what is left of the bound. -/
theorem Chain.exists_descends (hacyclic : d.SectionsAcyclic g) (n : Nat) :
    ∀ used level rs, d.Chain g used rs → d.depthLeft used rs ≤ n →
      ∃ t, Descends enters level rs t ∧ t.height < n := by
  induction n with
  | zero =>
      intro used level rs _ hleft
      exact absurd hleft (by simp [depthLeft])
  | succ n ih =>
      intro used level rs hchain hleft
      obtain ⟨t, ht, hheight⟩ : ∃ t, Descends enters level rs t ∧ t.height ≤ n := by
        refine exists_descends_of_forall level fun r hr body henters => ?_
        obtain ⟨hkind, hbody⟩ := hloops level r body henters
        have hless := hchain.depthLeft_lt hacyclic hr hkind hbody
        exact ih _ _ _ (hchain.inside hr hkind hbody) (by omega)
      exact ⟨t, ht, Nat.lt_succ_of_le hheight⟩

theorem exists_descends (hacyclic : d.SectionsAcyclic g) :
    ∃ t, Descends enters .root d.records t ∧ t.height < d.depthBound :=
  Chain.exists_descends hloops hacyclic _ _ _ _ .root d.depthLeft_root_le

end Descends

/-- The nesting that a lift goes through is that of the document with its bodies in place. -/
theorem Descends.unrolls {level : Level} {rs : List Record} {t : Nested Record}
    (ht : Descends (fun _ => d.opened? g) level rs t) : d.Unrolls g rs t := by
  induction ht with
  | nil => exact .nil
  | pass hclosed _ ih => exact .leaf hclosed ih
  | enter hopen _ _ ihInner ihRest => exact .loop hopen ihInner ihRest

end Document

/-- A pass that may open a number of lists inside one another ends exactly if the number
reaches a depth, and always with the same result. -/
def EndsAt {α : Type} (pass : Nat → Option α) (depth : Nat) : Prop :=
  ∃ result, ∀ n, pass n = if depth ≤ n then some result else none

namespace EndsAt

variable {α β : Type} {pass : Nat → Option α} {depth : Nat}

theorem isSome_iff (hends : EndsAt pass depth) {n : Nat} :
    (pass n).isSome = true ↔ depth ≤ n := by
  obtain ⟨result, hall⟩ := hends
  rw [hall]
  split <;> simp_all

theorem const (result : α) : EndsAt (fun _ => some result) 0 :=
  ⟨result, fun n => (if_pos n.zero_le).symm⟩

theorem map (hends : EndsAt pass depth) (f : α → β) : EndsAt (fun n => (pass n).map f) depth := by
  obtain ⟨result, hall⟩ := hends
  refine ⟨f result, fun n => ?_⟩
  dsimp only
  rw [hall]
  split <;> rfl

/-- What comes after a pass may have to go deeper than the pass. -/
theorem bind {next : α → Nat → Option β} {later : Nat} (hends : EndsAt pass depth)
    (hnext : ∀ a, EndsAt (next a) later) :
    EndsAt (fun n => (pass n).bind fun a => next a n) (max depth later) := by
  obtain ⟨result, hall⟩ := hends
  obtain ⟨last, hlast⟩ := hnext result
  refine ⟨last, fun n => ?_⟩
  dsimp only
  rw [hall]
  by_cases hfirst : depth ≤ n
  · rw [if_pos hfirst, Option.bind_some, hlast]
    simp only [Nat.max_le, hfirst, true_and]
  · rw [if_neg hfirst, Option.bind_none, if_neg fun hmax => hfirst (Nat.max_le.mp hmax).1]

/-- A list is opened around what the pass opens. -/
theorem succ (hends : EndsAt (fun n => pass (n + 1)) depth) (hzero : pass 0 = none) :
    EndsAt pass (depth + 1) := by
  obtain ⟨result, hall⟩ := hends
  refine ⟨result, fun n => ?_⟩
  cases n with
  | zero => rw [hzero, if_neg (by omega)]
  | succ n => simpa using hall n

end EndsAt

namespace Survey

open Document

variable {g : Registry} {d : Document}

/-- The body that is surveyed with a record of a level. -/
def entered? (g : Registry) (d : Document) (level : Level) (r : Record) : Option Blocks :=
  if g.iterates level r then d.body? r else none

theorem entered?_eq_some_iff {level : Level} {r : Record} {body : Blocks} :
    entered? g d level r = some body ↔ g.iterates level r = true ∧ d.body? r = some body := by
  unfold entered?
  split <;> simp_all

theorem iterates_iff {level : Level} {r : Record} : g.iterates level r = true ↔
    level.owner?.filter (fun _ => g.platform.isPseudoTag r.tag) = none ∧
      g.kind? r.tag = some .iteration := by
  cases level <;> simp [Registry.iterates, Level.owner?, and_comm]

/-- What a record calls for whose body is not surveyed. -/
theorem exists_ofRecord_of_closed {level : Level} {r : Record}
    (hclosed : entered? g d level r = none) :
    ∃ entries, ∀ inner, ofRecord g d inner level.owner? r = some entries := by
  unfold ofRecord
  cases hstart : level.owner?.filter (fun _ => g.platform.isPseudoTag r.tag) with
  | some loop => exact ⟨_, fun _ => rfl⟩
  | none =>
      by_cases hkind : g.kind? r.tag = some .iteration
      · have hbody : d.body? r = none := by
          simpa [entered?, iterates_iff.mpr ⟨hstart, hkind⟩] using hclosed
        exact ⟨outputEntries r ++ startEntries r, fun _ => by simp [hkind, hbody]⟩
      · exact ⟨[], fun _ => by simp [hkind]⟩

/-- What a record calls for whose body is surveyed. -/
theorem exists_ofRecord_of_entered {level : Level} {r : Record} {body : Blocks}
    (hentered : entered? g d level r = some body) :
    ∃ own, ∀ inner, ofRecord g d inner level.owner? r =
      (inner r.id body).map fun entries => own ++ entries := by
  obtain ⟨hiterates, hbody⟩ := entered?_eq_some_iff.mp hentered
  obtain ⟨hplain, hkind⟩ := iterates_iff.mp hiterates
  refine ⟨outputEntries r ++ startEntries r, fun inner => ?_⟩
  unfold ofRecord
  rw [hplain]
  simp [hkind, hbody]

theorem endsAt_ofRecords_cons {inner : Nat → String → Blocks → Option (List Resolver.Entry)}
    {owner : Option String} {r : Record} {rs : List Record} {depth later : Nat}
    (hrecord : EndsAt (fun n => ofRecord g d (inner n) owner r) depth)
    (hrest : EndsAt (fun n => ofRecords g d (inner n) owner rs) later) :
    EndsAt (fun n => ofRecords g d (inner n) owner (r :: rs)) (max depth later) := by
  have hall := hrecord.bind fun here => hrest.bind fun rest => EndsAt.const (here ++ rest)
  rwa [Nat.max_zero] at hall

theorem endsAt_ofRecords {level : Level} {rs : List Record} {t : Nested Record}
    (ht : Descends (entered? g d) level rs t) :
    EndsAt (fun n => ofRecords g d (fun loop body => within g d n (some loop) body.records)
      level.owner? rs) t.height := by
  induction ht with
  | nil => exact .const []
  | pass hclosed _ ih =>
      obtain ⟨entries, hentries⟩ := exists_ofRecord_of_closed hclosed
      rw [Nested.height, ← Nat.zero_max (Nested.height _)]
      refine endsAt_ofRecords_cons ?_ ih
      simpa only [hentries] using EndsAt.const entries
  | @enter level r rs body inner t hentered _ _ ihInner ihRest =>
      obtain ⟨own, hown⟩ := exists_ofRecord_of_entered hentered
      have hinner : EndsAt (fun n => within g d n (some r.id) body.records)
          (inner.height + 1) := ihInner.succ rfl
      refine endsAt_ofRecords_cons ?_ ihRest
      simpa only [hown] using hinner.map fun entries => own ++ entries

/-- A survey ends as soon as it may go as deep as its nesting. -/
theorem endsAt_within {level : Level} {rs : List Record} {t : Nested Record}
    (ht : Descends (entered? g d) level rs t) :
    EndsAt (fun n => within g d n level.owner? rs) (t.height + 1) :=
  (endsAt_ofRecords ht).succ rfl

theorem exists_descends (hacyclic : d.SectionsAcyclic g) :
    ∃ t, Descends (entered? g d) .root d.records t ∧ t.height < d.depthBound := by
  refine Document.exists_descends (fun level r body hentered => ?_) hacyclic
  obtain ⟨hiterates, hbody⟩ := entered?_eq_some_iff.mp hentered
  exact ⟨(iterates_iff.mp hiterates).2, hbody⟩

/-- A document whose sections are acyclic is surveyed to the end. -/
theorem isSome_resolver? (hacyclic : d.SectionsAcyclic g) : (resolver? g d).isSome = true := by
  obtain ⟨t, ht, hheight⟩ := exists_descends hacyclic
  rw [resolver?, Option.isSome_map]
  exact (endsAt_within ht).isSome_iff.mpr hheight

end Survey

namespace Lift

open Document

variable {g : Registry} {d : Document}

theorem endsAt_records_cons {resolver : Resolver}
    {inner : Nat → Level → List String → Blocks → Option Harvest} {level : Level}
    {removed : List String} {r : Record} {rs : List Record} {depth later : Nat}
    (hrecord : EndsAt (fun n => record g d resolver (inner n) level removed r) depth)
    (hrest : ∀ removed, EndsAt (fun n => records g d resolver (inner n) level removed rs) later) :
    EndsAt (fun n => records g d resolver (inner n) level removed (r :: rs))
      (max depth later) := by
  have hall := hrecord.bind fun here => (hrest (removed ++ here.2.removed)).bind fun rest =>
    EndsAt.const (here.1 ++ rest.1, here.2 ++ rest.2)
  rwa [Nat.max_zero] at hall

theorem endsAt_within_of_records {resolver : Resolver} {level : Level} {removed : List String}
    {body : Blocks} {depth : Nat}
    (hrecords : EndsAt (fun n =>
      records g d resolver (within g d resolver n) level removed body.records) depth) :
    EndsAt (fun n => within g d resolver n level removed body) (depth + 1) := by
  have hall := hrecords.bind fun out =>
    EndsAt.const (.ofLinks level body.links ++ out.2 ++ .ofLevel level out.1)
  rw [Nat.max_zero] at hall
  exact hall.succ rfl

theorem endsAt_records (hg : g.UsesBuiltIns) (resolver : Resolver) {rs : List Record}
    {t : Nested Record} (ht : d.Unrolls g rs t) : ∀ level removed,
      EndsAt (fun n => records g d resolver (within g d resolver n) level removed rs)
        t.height := by
  induction ht with
  | nil => exact fun _ _ => .const _
  | leaf hclosed _ ih =>
      intro level removed
      obtain ⟨slot, h, -, hall⟩ := record_leaf hg resolver level removed hclosed
      rw [Nested.height, ← Nat.zero_max (Nested.height _)]
      refine endsAt_records_cons ?_ (ih level)
      simpa only [hall] using EndsAt.const (slot.toList, h)
  | @loop r rs body inner t hopen _ _ ihInner ihRest =>
      intro level removed
      obtain ⟨n, h, -, -, hall⟩ := record_loop hg resolver level removed hopen
      have hinner := endsAt_within_of_records (ihInner (.body r.id) (removed ++ h.removed))
      refine endsAt_records_cons ?_ (ihRest level)
      simpa only [hall] using hinner.map _

/-- A lift ends as soon as it may go as deep as the nesting of the records. -/
theorem endsAt_within (hg : g.UsesBuiltIns) (resolver : Resolver) (level : Level)
    (removed : List String) {body : Blocks} {t : Nested Record}
    (ht : d.Unrolls g body.records t) :
    EndsAt (fun n => within g d resolver n level removed body) (t.height + 1) :=
  endsAt_within_of_records (endsAt_records hg resolver ht level removed)

theorem exists_unrolls (hg : g.UsesBuiltIns) (hacyclic : d.SectionsAcyclic g) :
    ∃ t, d.Unrolls g d.records t ∧ t.height < d.depthBound := by
  have hloops : ∀ (_ : Level) r body, d.opened? g r = some body →
      g.kind? r.tag = some .iteration ∧ d.body? r = some body := by
    intro _ r body hopen
    obtain ⟨hloop, hbody⟩ := opened?_eq_some_iff.mp hopen
    exact ⟨Registry.kind?_of_isLoop hg hloop, hbody⟩
  obtain ⟨t, ht, hheight⟩ := Document.exists_descends hloops hacyclic
  exact ⟨t, ht.unrolls, hheight⟩

/-- A document whose sections are acyclic is lifted to the end. -/
theorem isSome_root? (hg : g.UsesBuiltIns) (hacyclic : d.SectionsAcyclic g)
    (resolver : Resolver) : (root? g d resolver).isSome = true := by
  obtain ⟨t, ht, hheight⟩ := exists_unrolls hg hacyclic
  have hends : EndsAt (fun n => within g d resolver n .root [] ⟨d.records, d.links⟩)
      (t.height + 1) := endsAt_within hg resolver .root [] ht
  exact hends.isSome_iff.mpr hheight

end Lift

namespace Lifted

/-- A document whose sections are acyclic can be lifted. -/
theorem exists_ofDocument? {g : Registry} {d : Document} (hg : g.UsesBuiltIns)
    (hacyclic : d.SectionsAcyclic g) : ∃ l, ofDocument? g d = some l := by
  obtain ⟨resolver, hresolver⟩ :=
    Option.isSome_iff_exists.mp (Survey.isSome_resolver? hacyclic)
  obtain ⟨h, hroot⟩ := Option.isSome_iff_exists.mp (Lift.isSome_root? hg hacyclic resolver)
  simp [ofDocument?, hresolver, hroot]

end Lifted

namespace Document

variable {g : Registry} {d : Document}

/-- Whether the chains that go on from a list of records use no section twice, where at most
`n` lists lie inside one another. -/
def chainsApart (g : Registry) (d : Document) : Nat → List String → List Record → Bool
  | 0, _, _ => false
  | n + 1, used, rs => decide used.Nodup && rs.all fun r =>
      g.kind? r.tag != some .iteration || (d.body? r).all fun body =>
        chainsApart g d n (Lift.usedSection d r ++ used) body.records

theorem nodup_and_inside_of_chainsApart {n : Nat} {used : List String} {rs : List Record}
    (hapart : d.chainsApart g n used rs = true) :
    used.Nodup ∧ ∀ r ∈ rs, g.kind? r.tag = some .iteration → ∀ body, d.body? r = some body →
      ∃ m, d.chainsApart g m (Lift.usedSection d r ++ used) body.records = true := by
  cases n with
  | zero => cases hapart
  | succ n =>
      obtain ⟨hnodup, hall⟩ := Bool.and_eq_true_iff.mp hapart
      refine ⟨of_decide_eq_true hnodup, fun r hr hkind body hbody => ⟨n, ?_⟩⟩
      simpa [hkind, hbody] using List.all_eq_true.mp hall r hr

/-- A computation decides that no chain of loops uses a section twice. -/
theorem sectionsAcyclic_of_chainsApart (n : Nat)
    (hapart : d.chainsApart g n [] d.records = true) : d.SectionsAcyclic g := by
  have hchains : ∀ used rs, d.Chain g used rs → ∃ m, d.chainsApart g m used rs = true := by
    intro used rs hchain
    induction hchain with
    | root => exact ⟨n, hapart⟩
    | inside _ hr hkind hbody ih =>
        obtain ⟨m, hm⟩ := ih
        exact (nodup_and_inside_of_chainsApart hm).2 _ hr hkind _ hbody
  intro used rs hchain
  obtain ⟨m, hm⟩ := hchains used rs hchain
  exact (nodup_and_inside_of_chainsApart hm).1

/-- If no chain of loops uses a section twice, the survey and the lift each end, exactly when
they may go as deep as the nesting of the lists that they enter. With `s` sections and bodies
stored `i` deep, no more than `(1 + s) * (1 + i)` of these lists enclose one another. The two
nestings may differ: the survey enters the body of an iteration record that is not decoded
as a loop. -/
theorem exists_endsAt_le_of_sectionsAcyclic {p : Platform} (hg : Registry.Derived p g)
    (hacyclic : d.SectionsAcyclic g) :
    (∃ t, Descends (Survey.entered? g d) .root d.records t ∧
      t.height + 1 ≤ (1 + d.sections.entries.length) * (1 + d.inlineDepth) ∧
        EndsAt (fun n => Survey.within g d n none d.records) (t.height + 1)) ∧
    (∃ t, d.Unrolls g d.records t ∧
      t.height + 1 ≤ (1 + d.sections.entries.length) * (1 + d.inlineDepth) ∧
        ∀ resolver, EndsAt (fun n => Lift.within g d resolver n .root [] ⟨d.records, d.links⟩)
          (t.height + 1)) ∧
      ∃ l, Lifted.ofDocument? g d = some l := by
  have hbuiltIns := hg.usesBuiltIns
  obtain ⟨surveyed, hsurveyed, hsurvey⟩ := Survey.exists_descends hacyclic
  obtain ⟨lifted, hlifted, hlift⟩ := Lift.exists_unrolls hbuiltIns hacyclic
  exact ⟨⟨surveyed, hsurveyed, hsurvey, Survey.endsAt_within hsurveyed⟩,
    ⟨lifted, hlifted, hlift, fun resolver =>
      Lift.endsAt_within hbuiltIns resolver .root [] hlifted⟩,
    Lifted.exists_ofDocument? hbuiltIns hacyclic⟩

/-- One section and bodies stored one deep: the body of `a` holds `b`, the section of `b` holds
`c`, and the body of `c` holds a code node. -/
def deepest : Document where
  records := [{ Record.bare "a" "21" with blocks := some ⟨[.bare "b" "21"], []⟩ }]
  links := []
  sections :=
    [("b", Blocks.mk [{ Record.bare "c" "21" with blocks := some ⟨[.bare "x" "5"], []⟩ }] [])]

/-- Both passes need the whole bound here. -/
theorem exists_endsAt_le_deepest :
    Registry.Derived .coze (.withDefaults .coze) ∧
      deepest.SectionsAcyclic (.withDefaults .coze) ∧
      (1 + deepest.sections.entries.length) * (1 + deepest.inlineDepth) = 4 ∧
      EndsAt (fun n => Survey.within (.withDefaults .coze) deepest n none deepest.records) 4 ∧
      EndsAt (fun n => Lift.within (.withDefaults .coze) deepest (.ofEntries []) n .root []
        ⟨deepest.records, deepest.links⟩) 4 := by
  have hacyclic : deepest.SectionsAcyclic (.withDefaults .coze) :=
    sectionsAcyclic_of_chainsApart 4 (by decide +kernel)
  have hbound : (1 + deepest.sections.entries.length) * (1 + deepest.inlineDepth) = 4 := by
    decide +kernel
  obtain ⟨⟨surveyed, -, hsurvey, hsurveyEnds⟩, ⟨lifted, -, hlift, hliftEnds⟩, -⟩ :=
    exists_endsAt_le_of_sectionsAcyclic .defaults hacyclic
  rw [hbound] at hsurvey hlift
  -- A pass that may open three lists inside one another does not end.
  have hsurveyed : ¬ surveyed.height + 1 ≤ 3 := fun hless =>
    absurd (hsurveyEnds.isSome_iff.mpr hless) (by decide +kernel)
  have hlifted : ¬ lifted.height + 1 ≤ 3 := fun hless =>
    absurd ((hliftEnds (.ofEntries [])).isSome_iff.mpr hless) (by decide +kernel)
  have hsurveyed : surveyed.height + 1 = 4 := by omega
  have hlifted : lifted.height + 1 = 4 := by omega
  exact ⟨.defaults, hacyclic, hbound, hsurveyed ▸ hsurveyEnds,
    hlifted ▸ hliftEnds (.ofEntries [])⟩

end Document

end WorkflowGraph
