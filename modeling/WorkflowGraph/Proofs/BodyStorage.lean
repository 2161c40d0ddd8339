/-
# Where the body of a loop is stored

A loop keeps its body on its own record, or in the section of its id. Described here is
a document in which the body of one loop was moved from the section onto the record. An
id belongs to one iteration record at most, so the move touches a single record; if that
record is a loop that is lifted, the move stays clear of everything that is not lifted:
of records that hold a body without being loops, and of sections without a loop.
-/

import WorkflowGraph.Proofs.UniqueIds

namespace WorkflowGraph

mutual

/-- The ids of the iteration records of a list and of the bodies stored on its records,
decodable or not. -/
def Record.iterationIds (g : Registry) : List Record → List String
  | [] => []
  | ⟨id, tag, _, _, _, _, blocks, _⟩ :: rs =>
    (if g.kind? tag = some .iteration then [id] else []) ++ Blocks.iterationIds g blocks
      ++ Record.iterationIds g rs

/-- The ids of the iteration records of a body that may be stored on a record. -/
def Blocks.iterationIds (g : Registry) : Option Blocks → List String
  | none => []
  | some ⟨records, _⟩ => Record.iterationIds g records

end

mutual

/-- Stores a body on the iteration record of an id, wherever the record stands in a list
or in a body stored there. A record that has a body keeps it. -/
def Record.storeAll (g : Registry) (x : String) (body : Blocks) : List Record → List Record
  | [] => []
  | ⟨id, tag, title, params, inputs, outputs, blocks, presentation⟩ :: rs =>
    ⟨id, tag, title, params, inputs, outputs, Blocks.store g x body id tag blocks,
      presentation⟩ :: Record.storeAll g x body rs

/-- The body that a record has afterwards. -/
def Blocks.store (g : Registry) (x : String) (body : Blocks) (id tag : String) :
    Option Blocks → Option Blocks
  | none => if id = x ∧ g.kind? tag = some .iteration then some body else none
  | some ⟨records, links⟩ => some ⟨Record.storeAll g x body records, links⟩

end

/-- The record with the body stored on it, if it is the one that the body is for. -/
def Record.store (g : Registry) (x : String) (body : Blocks) (r : Record) : Record :=
  { r with blocks := Blocks.store g x body r.id r.tag r.blocks }

/-- A body in which another body is stored on its record. -/
def Blocks.storeInside (g : Registry) (x : String) (body b : Blocks) : Blocks :=
  ⟨Record.storeAll g x body b.records, b.links⟩

namespace Document

/-- The ids of all iteration records of a document, in whatever body they stand. -/
def iterationIds (g : Registry) (d : Document) : List String :=
  Record.iterationIds g d.records ++
    d.sections.entries.flatMap fun e => Record.iterationIds g e.2.records

/-- Moves the section of an id onto the iteration record of that id. -/
def moveSection (g : Registry) (x : String) (d : Document) : Document :=
  match Table.get? x d.sections with
  | none => d
  | some body =>
    { records := Record.storeAll g x body d.records
      links := d.links
      sections := (Table.erase x d.sections).map (Blocks.storeInside g x body) }

end Document

section
variable {g : Registry} {x : String} {body : Blocks} {r q : Record} {rs : List Record}

namespace Record

theorem storeAll_eq_map : storeAll g x body rs = rs.map (store g x body) := by
  induction rs with
  | nil => rw [storeAll, List.map_nil]
  | cons r rs ih =>
      cases r
      rw [storeAll, ih]
      rfl

@[simp] theorem store_id : (store g x body r).id = r.id := rfl

@[simp] theorem store_tag : (store g x body r).tag = r.tag := rfl

@[simp] theorem store_outputs : (store g x body r).outputs = r.outputs := rfl

theorem store_blocks : (store g x body r).blocks = Blocks.store g x body r.id r.tag r.blocks :=
  rfl

theorem iterationIds_cons :
    iterationIds g (r :: rs) = iterationIds g [r] ++ iterationIds g rs := by
  cases r
  simp [iterationIds]

theorem iterationIds_eq_flatMap :
    iterationIds g rs = rs.flatMap fun r => iterationIds g [r] := by
  induction rs with
  | nil => rw [iterationIds, List.flatMap_nil]
  | cons r rs ih => rw [iterationIds_cons, ih, List.flatMap_cons]

theorem mem_iterationIds_of_mem (hr : r ∈ rs) (hx : x ∈ iterationIds g [r]) :
    x ∈ iterationIds g rs := by
  rw [iterationIds_eq_flatMap]
  exact List.mem_flatMap.mpr ⟨r, hr, hx⟩

theorem id_mem_iterationIds (hkind : g.kind? r.tag = some .iteration) :
    r.id ∈ iterationIds g [r] := by
  obtain ⟨id, tag, title, params, inputs, outputs, blocks, presentation⟩ := r
  have hkind : g.kind? tag = some .iteration := hkind
  simp [iterationIds, hkind]

theorem mem_iterationIds_of_blocks {b : Blocks} (hblocks : r.blocks = some b)
    (hx : x ∈ iterationIds g b.records) : x ∈ iterationIds g [r] := by
  obtain ⟨id, tag, title, params, inputs, outputs, blocks, presentation⟩ := r
  obtain rfl : blocks = some b := hblocks
  obtain ⟨records, links⟩ := b
  simp [iterationIds, Blocks.iterationIds, hx]

theorem nodup_iterationIds_of_blocks {b : Blocks} (hr : r ∈ rs) (hblocks : r.blocks = some b)
    (hnodup : (iterationIds g rs).Nodup) : (iterationIds g b.records).Nodup := by
  rw [iterationIds_eq_flatMap] at hnodup
  have hown := (List.nodup_flatMap.mp hnodup).1 r hr
  obtain ⟨id, tag, title, params, inputs, outputs, blocks, presentation⟩ := r
  obtain rfl : blocks = some b := hblocks
  obtain ⟨records, links⟩ := b
  simp only [iterationIds, Blocks.iterationIds, List.append_nil] at hown
  exact hown.of_append_right

theorem eq_of_mem_iterationIds (hnodup : (iterationIds g rs).Nodup) (hr : r ∈ rs) (hq : q ∈ rs)
    (hxr : x ∈ iterationIds g [r]) (hxq : x ∈ iterationIds g [q]) : r = q := by
  rw [iterationIds_eq_flatMap] at hnodup
  exact eq_of_mem_of_nodup_flatMap hnodup hr hq hxr hxq

end Record

/-! ## Where nothing is stored -/

mutual

theorem Record.storeAll_eq_self :
    (rs : List Record) → x ∉ Record.iterationIds g rs → Record.storeAll g x body rs = rs
  | [], _ => by rw [Record.storeAll]
  | ⟨id, tag, title, params, inputs, outputs, blocks, presentation⟩ :: rs, h => by
      simp only [Record.iterationIds, List.mem_append, not_or] at h
      obtain ⟨⟨hown, hblocks⟩, hrest⟩ := h
      have hother : ¬ (id = x ∧ g.kind? tag = some .iteration) := by
        rintro ⟨rfl, hkind⟩
        simp [hkind] at hown
      rw [Record.storeAll, Blocks.store_eq_self id tag hother blocks hblocks,
        Record.storeAll_eq_self rs hrest]

theorem Blocks.store_eq_self (id tag : String)
    (hother : ¬ (id = x ∧ g.kind? tag = some .iteration)) :
    (blocks : Option Blocks) → x ∉ Blocks.iterationIds g blocks →
      Blocks.store g x body id tag blocks = blocks
  | none, _ => by rw [Blocks.store, if_neg hother]
  | some ⟨records, links⟩, h => by
      rw [Blocks.iterationIds] at h
      rw [Blocks.store, Record.storeAll_eq_self records h]

end

theorem Record.store_eq_self (h : x ∉ iterationIds g [r]) : store g x body r = r := by
  have hall : storeAll g x body [r] = [r] := storeAll_eq_self [r] h
  rw [storeAll_eq_map] at hall
  exact List.singleton_inj.mp hall

theorem Blocks.storeInside_eq_self {b : Blocks} (h : x ∉ Record.iterationIds g b.records) :
    storeInside g x body b = b := by
  obtain ⟨records, links⟩ := b
  exact congrArg (Blocks.mk · links) (Record.storeAll_eq_self records h)

end

/-! ## Where the loop can stand -/

namespace Record

/-- A loop of an id that stores no body stands in a list, or in a body stored on a loop. -/
inductive LeadsTo (g : Registry) (x : String) : List Record → Prop
  | here {rs : List Record} {r : Record} :
      r ∈ rs → g.isLoop r = true → r.id = x → r.blocks = none → LeadsTo g x rs
  | inside {rs : List Record} {r : Record} {b : Blocks} :
      r ∈ rs → g.isLoop r = true → r.blocks = some b → LeadsTo g x b.records → LeadsTo g x rs

/-- No iteration record of an id stands on a record that is no loop, neither in a list
nor in a body stored on a loop. -/
inductive Clear (g : Registry) (x : String) : List Record → Prop
  | intro {rs : List Record} :
      (∀ r ∈ rs, g.isLoop r = false → x ∉ iterationIds g [r]) →
      (∀ r ∈ rs, ∀ b, g.isLoop r = true → r.blocks = some b → Clear g x b.records) →
        Clear g x rs

variable {g : Registry} {x : String} {rs : List Record}

theorem LeadsTo.mem_iterationIds (hg : g.UsesBuiltIns) (hleads : LeadsTo g x rs) :
    x ∈ iterationIds g rs := by
  induction hleads with
  | here hr hloop hid _ =>
      have hown := id_mem_iterationIds (Registry.kind?_of_isLoop hg hloop)
      rw [hid] at hown
      exact mem_iterationIds_of_mem hr hown
  | inside hr _ hblocks _ ih =>
      exact mem_iterationIds_of_mem hr (mem_iterationIds_of_blocks hblocks ih)

/-- A list without the id is clear of it, to any depth. -/
theorem clear_of_not_mem (h : x ∉ iterationIds g rs) : Clear g x rs := by
  generalize hdepth : inlineDepth rs = depth
  induction depth using Nat.strongRecOn generalizing rs with
  | ind depth ih =>
    refine .intro (fun r hr _ hx => h (mem_iterationIds_of_mem hr hx)) ?_
    intro r hr b _ hblocks
    have hless := Document.inlineDepth_le_of_mem hr hblocks
    refine ih _ (hdepth ▸ hless) (fun hx => h ?_) rfl
    exact mem_iterationIds_of_mem hr (mem_iterationIds_of_blocks hblocks hx)

/-- If an id occurs once and on a loop, it occurs on nothing else. -/
theorem LeadsTo.clear (hg : g.UsesBuiltIns) (hleads : LeadsTo g x rs)
    (hnodup : (iterationIds g rs).Nodup) : Clear g x rs := by
  induction hleads with
  | @here rs r hr hloop hid hnone =>
      have hown : x ∈ iterationIds g [r] :=
        hid ▸ id_mem_iterationIds (Registry.kind?_of_isLoop hg hloop)
      refine .intro (fun q hq hplain hx => ?_) (fun q hq b _ hblocks => ?_)
      · obtain rfl := eq_of_mem_iterationIds hnodup hr hq hown hx
        cases hloop.symm.trans hplain
      · refine clear_of_not_mem fun hx => ?_
        obtain rfl := eq_of_mem_iterationIds hnodup hr hq hown
          (mem_iterationIds_of_blocks hblocks hx)
        cases hnone.symm.trans hblocks
  | @inside rs r b hr hloop hblocks hinner ih =>
      have hown : x ∈ iterationIds g [r] :=
        mem_iterationIds_of_blocks hblocks (hinner.mem_iterationIds hg)
      refine .intro (fun q hq hplain hx => ?_) (fun q hq c _ hc => ?_)
      · obtain rfl := eq_of_mem_iterationIds hnodup hr hq hown hx
        cases hloop.symm.trans hplain
      · by_cases hx : x ∈ iterationIds g c.records
        · obtain rfl := eq_of_mem_iterationIds hnodup hr hq hown
            (mem_iterationIds_of_blocks hc hx)
          obtain rfl := Option.some.inj (hblocks.symm.trans hc)
          exact ih (nodup_iterationIds_of_blocks hr hblocks hnodup)
        · exact clear_of_not_mem hx

end Record

namespace Document

variable {g : Registry} {d : Document} {x : String} {level : Level} {rs : List Record}

/-- If no section holds an iteration record, no chain of loops uses two sections. -/
theorem sectionsAcyclic_of_plain
    (hplain : ∀ e ∈ d.sections.entries, Record.iterationIds g e.2.records = []) :
    d.SectionsAcyclic g := by
  have hchain : ∀ used rs, d.Chain g used rs →
      used = [] ∨ used.Nodup ∧ Record.iterationIds g rs = [] := by
    intro used rs hchain
    induction hchain with
    | root => exact Or.inl rfl
    | @inside used rs r body _ hr hkind hbody ih =>
        have hid := Record.mem_iterationIds_of_mem hr (Record.id_mem_iterationIds hkind)
        rcases ih with rfl | ⟨-, hnone⟩
        · cases hblocks : r.blocks with
          | some own => exact Or.inl (by simp [Lift.usedSection, hblocks])
          | none =>
              have hsection : Table.get? r.id d.sections = some body := by
                simpa [body?, hblocks] using hbody
              have hused : Lift.usedSection d r = [r.id] := by
                simp [Lift.usedSection, hblocks, Table.hasKey_eq_isSome_get?, hsection]
              rw [hused, List.append_nil]
              exact Or.inr ⟨List.nodup_singleton _, hplain _ (Table.mem_of_get?_eq_some hsection)⟩
        · rw [hnone] at hid
          cases hid
  intro used rs hused
  rcases hchain used rs hused with rfl | ⟨hnodup, -⟩
  · exact .nil
  · exact hnodup

/-- A section is lifted with a loop that stores no body. -/
def Opens (g : Registry) (d : Document) (e : String × Blocks) : Prop :=
  ∃ level rs, d.Lists g level rs ∧ ∃ r ∈ rs, g.isLoop r = true ∧ r.blocks = none ∧ r.id = e.1 ∧
    Table.get? e.1 d.sections = some e.2

/-- The list in which a loop stands is reached from the root through bodies stored on
loops, or so from a section that another loop opens. -/
theorem Lists.leadsTo (hlist : d.Lists g level rs) (hleads : Record.LeadsTo g x rs) :
    Record.LeadsTo g x d.records ∨
      ∃ e ∈ d.sections.entries, e.1 ≠ x ∧ d.Opens g e ∧ Record.LeadsTo g x e.2.records := by
  induction hlist with
  | root => exact Or.inl hleads
  | @body level rs r body houter hr hopen ih =>
      obtain ⟨hloop, hbody⟩ := opened?_eq_some_iff.mp hopen
      cases hblocks : r.blocks with
      | some own =>
          have hown : own = body := by simpa [body?, hblocks] using hbody
          exact ih (.inside hr hloop (hown ▸ hblocks) hleads)
      | none =>
          have hsection : Table.get? r.id d.sections = some body := by
            simpa [body?, hblocks] using hbody
          by_cases hid : r.id = x
          · exact ih (.here hr hloop hid hblocks)
          · exact Or.inr ⟨(r.id, body), Table.mem_of_get?_eq_some hsection, hid,
              ⟨level, rs, houter, r, hr, hloop, hblocks, rfl, hsection⟩, hleads⟩

/-- The section of an id can be moved onto the loop of that id: no iteration record of
the id stands in the section itself, on a record that is no loop, or in a section that
is not lifted. -/
structure Movable (g : Registry) (d : Document) (x : String) (body : Blocks) : Prop where
  found : Table.get? x d.sections = some body
  lifted : d.Opens g (x, body)
  outside : x ∉ Record.iterationIds g body.records
  records : Record.Clear g x d.records
  sections : ∀ e ∈ d.sections.entries, Record.Clear g x e.2.records
  opens : ∀ e ∈ d.sections.entries, x ∈ Record.iterationIds g e.2.records → d.Opens g e

/-- If no two iteration records share an id, the section of a loop that is lifted and
stores no body can be moved onto the loop. -/
theorem movable_of_lists (hg : g.UsesBuiltIns) (hids : (d.iterationIds g).Nodup)
    (hlist : d.Lists g level rs) {r : Record} (hr : r ∈ rs) (hloop : g.isLoop r = true)
    (hblocks : r.blocks = none) {body : Blocks}
    (hsection : Table.get? r.id d.sections = some body) :
    d.Movable g r.id body := by
  obtain ⟨hroot, hsections, hapart⟩ := List.nodup_append.mp hids
  have hbody := Table.mem_of_get?_eq_some hsection
  have hlifted : d.Opens g (r.id, body) :=
    ⟨level, rs, hlist, r, hr, hloop, hblocks, rfl, hsection⟩
  have hclear : ∀ e ∈ d.sections.entries, r.id ∈ Record.iterationIds g e.2.records →
      ∀ other ∈ d.sections.entries, other ≠ e → r.id ∉ Record.iterationIds g other.2.records := by
    intro e he hx other hother hne hx'
    exact hne (eq_of_mem_of_nodup_flatMap hsections hother he hx' hx)
  rcases hlist.leadsTo (.here hr hloop rfl hblocks) with hleads | ⟨e, he, hne, hopens, hleads⟩
  · -- The loop is reached from the root, so its id occurs in no section.
    have hx := hleads.mem_iterationIds hg
    have hnone : ∀ e ∈ d.sections.entries, r.id ∉ Record.iterationIds g e.2.records := by
      intro e he hx'
      exact hapart _ hx _ (List.mem_flatMap.mpr ⟨e, he, hx'⟩) rfl
    exact ⟨hsection, hlifted, hnone _ hbody, hleads.clear hg hroot,
      fun e he => Record.clear_of_not_mem (hnone e he), fun e he hx' => absurd hx' (hnone e he)⟩
  · -- The loop is reached from an open section, so its id occurs nowhere else.
    have hx := hleads.mem_iterationIds hg
    have hother : ∀ other ∈ d.sections.entries, other ≠ e →
        r.id ∉ Record.iterationIds g other.2.records := hclear e he hx
    refine ⟨hsection, hlifted, hother _ hbody (fun h => hne (h ▸ rfl)), ?_, fun other hin => ?_,
      fun other hin hx' => ?_⟩
    · refine Record.clear_of_not_mem fun hx' => ?_
      exact hapart _ hx' _ (List.mem_flatMap.mpr ⟨e, he, hx⟩) rfl
    · by_cases hsame : other = e
      · rw [hsame]
        exact hleads.clear hg ((List.nodup_flatMap.mp hsections).1 e he)
      · exact Record.clear_of_not_mem (hother other hin hsame)
    · by_cases hsame : other = e
      · exact hsame ▸ hopens
      · exact absurd hx' (hother other hin hsame)

end Document

end WorkflowGraph
