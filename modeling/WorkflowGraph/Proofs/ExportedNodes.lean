/-
# The nodes of an export

The records of a document are made of the nodes of an export, one of each. A platform
keeps its nodes in one list, in the bodies of loops, or in sections, and the document keeps
their records in other places; but every record of the document is that of a node which
the export lists somewhere.
-/

import WorkflowGraph.Proofs.ParamReading
import WorkflowGraph.Proofs.RecordFindings

namespace WorkflowGraph

/-- Where no body is stored on any record, nothing stands inside. -/
theorem Record.Within.mem_of_flat {r : Record} {rs : List Record} (hr : r.Within rs)
    (hflat : ∀ owner ∈ rs, owner.blocks = none) : r ∈ rs := by
  cases hr with
  | here hmem => exact hmem
  | inside howner hblocks _ => cases (hflat _ howner).symm.trans hblocks

namespace Dify

/-- The nodes that an export lists; none if it cannot be read. -/
def exportedNodes (exported : Json) : List NodeEntry :=
  match Canvas.read (graphPart exported) with
  | .ok canvas => canvas.nodes
  | .error _ => []

/-- The document of an export is that of the canvas in it. -/
theorem exists_canvas_of_parse {exported : Json} {d : Document}
    (hparse : parse exported = .ok d) :
    ∃ canvas, Canvas.read (graphPart exported) = .ok canvas ∧ canvas.toDocument = d := by
  unfold parse at hparse
  extract_lets graph at hparse
  split at hparse
  · cases hparse
  · split at hparse
    next canvas hread => exact ⟨canvas, hread, Except.ok.inj hparse⟩
    next => cases hparse

/-- The settings of a node give its record parameters, inputs and outputs, and leave the rest
as it is. -/
theorem exists_withSettings_eq (data : List (String × Json)) (r : Record) :
    ∃ params inputs outputs, withSettings data r =
      { r with params := params, inputs := inputs, outputs := outputs } := by
  obtain ⟨id, tag, title, params, inputs, outputs, blocks, presentation⟩ := r
  unfold withSettings
  extract_lets get text pointer
  split <;> exact ⟨_, _, _, rfl⟩

/-- The tag of a node. -/
def NodeEntry.tag (e : NodeEntry) : String :=
  Loose.text (Fields.get? "type" e.data)

theorem id_toRecord (e : NodeEntry) : e.toRecord.id = e.id := by
  obtain ⟨params, inputs, outputs, hrecord⟩ := exists_withSettings_eq e.data _
  rw [NodeEntry.toRecord, hrecord]
  rfl

theorem tag_toRecord (e : NodeEntry) : e.toRecord.tag = e.tag := by
  obtain ⟨params, inputs, outputs, hrecord⟩ := exists_withSettings_eq e.data _
  rw [NodeEntry.toRecord, hrecord]
  rfl

theorem blocks_toRecord (e : NodeEntry) : e.toRecord.blocks = none := by
  obtain ⟨params, inputs, outputs, hrecord⟩ := exists_withSettings_eq e.data _
  rw [NodeEntry.toRecord, hrecord]
  rfl

/-- A section holds what was added to it. -/
theorem forall_addToSection {P : Record → Prop} {sections : Table Blocks} {owner : String}
    {r : Record} (hsections : ∀ entry ∈ sections.entries, ∀ r ∈ entry.2.records, P r) (hr : P r) :
    ∀ entry ∈ (addToSection sections owner r).entries, ∀ r ∈ entry.2.records, P r := by
  intro entry hentry
  rcases Fields.mem_of_mem_insert hentry with rfl | hold
  · refine List.forall_mem_append.mpr ⟨?_, List.forall_mem_singleton.mpr hr⟩
    cases hfound : Table.get? owner sections with
    | none => nofun
    | some body => exact hsections _ (Table.mem_of_get?_eq_some hfound)
  · exact hsections entry hold

/-- Every record of a section is the record of a node. -/
theorem exists_of_mem_sections (nodes : List NodeEntry) :
    ∀ entry ∈ (sections nodes).entries, ∀ r ∈ entry.2.records, ∃ e ∈ nodes, e.toRecord = r := by
  refine List.foldlRecOn nodes _ (motive := fun table : Table Blocks =>
    ∀ entry ∈ table.entries, ∀ r ∈ entry.2.records, ∃ e ∈ nodes, e.toRecord = r)
    (fun entry hentry => absurd hentry List.not_mem_nil) fun table htable e he => ?_
  cases e.parent? with
  | none => exact htable
  | some owner => exact forall_addToSection htable ⟨e, he, rfl⟩

/-- Every record of a document is the record of a node of the export. -/
theorem exists_toRecord_of_parse {exported : Json} {d : Document}
    (hparse : parse exported = .ok d) {r : Record} (hr : d.Holds r) :
    ∃ e ∈ exportedNodes exported, e.toRecord = r := by
  obtain ⟨canvas, hread, rfl⟩ := exists_canvas_of_parse hparse
  have hnodes : exportedNodes exported = canvas.nodes := by
    rw [exportedNodes, hread]
  rw [hnodes]
  have hflat : ∀ rs : List Record, (∀ r ∈ rs, ∃ e ∈ canvas.nodes, e.toRecord = r) →
      r.Within rs → ∃ e ∈ canvas.nodes, e.toRecord = r := by
    intro rs hrs hwithin
    refine hrs r (hwithin.mem_of_flat fun owner howner => ?_)
    obtain ⟨e, -, rfl⟩ := hrs owner howner
    exact blocks_toRecord e
  cases hr with
  | root hwithin =>
      refine hflat _ (List.forall_mem_map.mpr fun e he => ⟨e, ?_, rfl⟩) hwithin
      exact (List.mem_filter.mp he).1
  | @nested entry hentry hwithin =>
      exact hflat _ (exists_of_mem_sections canvas.nodes entry hentry) hwithin

end Dify

namespace Coze

mutual
/-- A node and the nodes at any depth below it, whether it is a loop or not. -/
def NodeEntry.family : NodeEntry → List NodeEntry
  | ⟨id, type, board, data, blocks, links⟩ =>
    ⟨id, type, board, data, blocks, links⟩ :: NodeEntry.optionFamilies blocks

/-- The nodes of a list that may be absent, at any depth. -/
def NodeEntry.optionFamilies : Option (List NodeEntry) → List NodeEntry
  | none => []
  | some entries => NodeEntry.families entries

/-- The nodes of a list, at any depth. -/
def NodeEntry.families : List NodeEntry → List NodeEntry
  | [] => []
  | e :: es => e.family ++ NodeEntry.families es
end

/-- The nodes that an export lists, at any depth; none if it cannot be read. -/
def exportedNodes (exported : Json) : List NodeEntry :=
  match Canvas.read exported with
  | .ok canvas => NodeEntry.families canvas.nodes
  | .error _ => []

/-- The document of a canvas. -/
def Canvas.toDocument (canvas : Canvas) : Document :=
  ⟨NodeEntry.toRecords canvas.nodes, canvas.links, ∅⟩

/-- The document of an export is that of the canvas in it. -/
theorem exists_canvas_of_parse {exported : Json} {d : Document}
    (hparse : parse exported = .ok d) :
    ∃ canvas, Canvas.read exported = .ok canvas ∧ canvas.toDocument = d := by
  unfold parse at hparse
  split at hparse
  · cases hparse
  · split at hparse
    next canvas hread => exact ⟨canvas, hread, Except.ok.inj hparse⟩
    next => cases hparse

/-- The nodes that a node holds, whether it is a loop or not. -/
def NodeEntry.held (e : NodeEntry) : List NodeEntry :=
  e.blocks.getD []

theorem NodeEntry.family_eq (e : NodeEntry) : e.family = e :: NodeEntry.families e.held := by
  obtain ⟨id, type, board, data, blocks, links⟩ := e
  rw [NodeEntry.family]
  cases blocks with
  | none => simp [NodeEntry.optionFamilies, NodeEntry.held, NodeEntry.families]
  | some entries => simp [NodeEntry.optionFamilies, NodeEntry.held]

theorem NodeEntry.families_eq_flatMap (entries : List NodeEntry) :
    NodeEntry.families entries = entries.flatMap NodeEntry.family := by
  induction entries with
  | nil => rw [NodeEntry.families, List.flatMap_nil]
  | cons e entries ih => rw [NodeEntry.families, ih, List.flatMap_cons]

theorem NodeEntry.mem_families {e : NodeEntry} {entries : List NodeEntry} (he : e ∈ entries) :
    e ∈ NodeEntry.families entries := by
  rw [NodeEntry.families_eq_flatMap]
  refine List.mem_flatMap.mpr ⟨e, he, ?_⟩
  rw [NodeEntry.family_eq]
  exact List.mem_cons_self

/-- What a node of a list holds is found at some depth of the list. -/
theorem NodeEntry.families_held_subset {e : NodeEntry} {entries : List NodeEntry}
    (he : e ∈ entries) : NodeEntry.families e.held ⊆ NodeEntry.families entries := by
  intro inner hinner
  rw [NodeEntry.families_eq_flatMap entries]
  refine List.mem_flatMap.mpr ⟨e, he, ?_⟩
  rw [NodeEntry.family_eq]
  exact List.mem_cons_of_mem _ hinner

/-- The settings of a node give its record parameters, and leave the rest as it is. -/
theorem exists_withSettings_eq (data : List (String × Json)) (r : Record) :
    ∃ params, withSettings data r = { r with params := params } := by
  obtain ⟨id, tag, title, params, inputs, outputs, blocks, presentation⟩ := r
  unfold withSettings
  extract_lets get settings setting
  split <;> exact ⟨_, rfl⟩

/-- Only loops get a body. -/
theorem toRecord_eq (e : NodeEntry) : e.toRecord =
    if e.tag = "21" then
      { e.head with blocks := some ⟨NodeEntry.toRecords e.held, e.links.getD []⟩ }
    else e.head := by
  obtain ⟨id, type, board, data, blocks, links⟩ := e
  rw [NodeEntry.toRecord]
  simp only [beq_iff_eq]
  cases blocks with
  | none => simp [NodeEntry.optionToRecords, NodeEntry.held, NodeEntry.toRecords]
  | some entries => simp [NodeEntry.optionToRecords, NodeEntry.held]

theorem id_toRecord (e : NodeEntry) : e.toRecord.id = e.id := by
  obtain ⟨params, hrecord⟩ := exists_withSettings_eq e.data _
  rw [toRecord_eq, NodeEntry.head, hrecord]
  split <;> rfl

theorem tag_toRecord (e : NodeEntry) : e.toRecord.tag = e.tag := by
  obtain ⟨params, hrecord⟩ := exists_withSettings_eq e.data _
  rw [toRecord_eq, NodeEntry.head, hrecord]
  split <;> rfl

/-- Only the record of a loop stores a body, which is that of the nodes it holds. -/
theorem blocks_toRecord (e : NodeEntry) : e.toRecord.blocks =
    if e.tag = "21" then some ⟨NodeEntry.toRecords e.held, e.links.getD []⟩ else none := by
  obtain ⟨params, hrecord⟩ := exists_withSettings_eq e.data _
  rw [toRecord_eq, NodeEntry.head, hrecord]
  split <;> rfl

theorem toRecords_eq_map (entries : List NodeEntry) :
    NodeEntry.toRecords entries = entries.map NodeEntry.toRecord := by
  induction entries with
  | nil => rw [NodeEntry.toRecords, List.map_nil]
  | cons e entries ih => rw [NodeEntry.toRecords, ih, List.map_cons]

theorem exists_toRecord_of_within {r : Record} {rs : List Record} (hr : r.Within rs) :
    ∀ entries, rs = NodeEntry.toRecords entries →
      ∃ e ∈ NodeEntry.families entries, e.toRecord = r := by
  induction hr with
  | here hmem =>
      rintro entries rfl
      rw [toRecords_eq_map] at hmem
      obtain ⟨e, he, rfl⟩ := List.mem_map.mp hmem
      exact ⟨e, NodeEntry.mem_families he, rfl⟩
  | inside howner hblocks _ ih =>
      rintro entries rfl
      rw [toRecords_eq_map] at howner
      obtain ⟨e, he, rfl⟩ := List.mem_map.mp howner
      rw [blocks_toRecord] at hblocks
      split at hblocks
      · obtain rfl := Option.some.inj hblocks
        obtain ⟨inner, hinner, hrecord⟩ := ih e.held rfl
        exact ⟨inner, NodeEntry.families_held_subset he hinner, hrecord⟩
      · cases hblocks

/-- Every record of a document is the record of a node of the export. -/
theorem exists_toRecord_of_parse {exported : Json} {d : Document}
    (hparse : parse exported = .ok d) {r : Record} (hr : d.Holds r) :
    ∃ e ∈ exportedNodes exported, e.toRecord = r := by
  obtain ⟨canvas, hread, rfl⟩ := exists_canvas_of_parse hparse
  rw [exportedNodes, hread]
  cases hr with
  | root hwithin => exact exists_toRecord_of_within hwithin canvas.nodes rfl
  | nested hentry _ => cases hentry

end Coze

namespace Bailian

/-- The nodes that a flow lists, also in its subflows. -/
def Flow.allNodes (f : Flow) : List NodeEntry :=
  f.nodes ++ f.subflows.entries.flatMap fun s => s.2.nodes

/-- The nodes that an export lists, also in its subflows; none if it cannot be read. -/
def exportedNodes (exported : Json) : List NodeEntry :=
  match Flow.read exported with
  | .ok flow => flow.allNodes
  | .error _ => []

/-- The document of an export is that of the flow in it. -/
theorem exists_flow_of_parse {exported : Json} {d : Document}
    (hparse : parse exported = .ok d) :
    ∃ flow, Flow.read exported = .ok flow ∧ flow.toDocument = d := by
  unfold parse at hparse
  split at hparse
  · cases hparse
  · split at hparse
    next flow hread => exact ⟨flow, hread, Except.ok.inj hparse⟩
    next => cases hparse

/-- The settings of a node give its record parameters, and leave the rest as it is. -/
theorem exists_withSettings_eq (config : List (String × Json)) (r : Record) :
    ∃ params, withSettings config r = { r with params := params } := by
  obtain ⟨id, tag, title, params, inputs, outputs, blocks, presentation⟩ := r
  unfold withSettings
  extract_lets get text
  split <;> exact ⟨_, rfl⟩

theorem id_toRecord (e : NodeEntry) : e.toRecord.id = e.id := by
  obtain ⟨params, hrecord⟩ := exists_withSettings_eq e.config _
  rw [NodeEntry.toRecord, hrecord]
  rfl

theorem tag_toRecord (e : NodeEntry) : e.toRecord.tag = e.type := by
  obtain ⟨params, hrecord⟩ := exists_withSettings_eq e.config _
  rw [NodeEntry.toRecord, hrecord]
  rfl

theorem blocks_toRecord (e : NodeEntry) : e.toRecord.blocks = none := by
  obtain ⟨params, hrecord⟩ := exists_withSettings_eq e.config _
  rw [NodeEntry.toRecord, hrecord]
  rfl

/-- Every record of a document is the record of a node of the export. -/
theorem exists_toRecord_of_parse {exported : Json} {d : Document}
    (hparse : parse exported = .ok d) {r : Record} (hr : d.Holds r) :
    ∃ e ∈ exportedNodes exported, e.toRecord = r := by
  obtain ⟨flow, hread, rfl⟩ := exists_flow_of_parse hparse
  have hnodes : exportedNodes exported = flow.allNodes := by
    rw [exportedNodes, hread]
  rw [hnodes]
  have hflat : ∀ nodes : List NodeEntry, r.Within (nodes.map NodeEntry.toRecord) →
      ∃ e ∈ nodes, e.toRecord = r := by
    intro nodes hwithin
    exact List.mem_map.mp
      (hwithin.mem_of_flat (List.forall_mem_map.mpr fun e _ => blocks_toRecord e))
  cases hr with
  | root hwithin =>
      obtain ⟨e, he, hrecord⟩ := hflat _ hwithin
      exact ⟨e, List.mem_append_left _ he, hrecord⟩
  | nested hentry hwithin =>
      obtain ⟨subflow, hsubflow, rfl⟩ := List.mem_map.mp hentry
      obtain ⟨e, he, hrecord⟩ := hflat _ hwithin
      exact ⟨e, List.mem_append_right _ (List.mem_flatMap.mpr ⟨subflow, hsubflow, he⟩), hrecord⟩

end Bailian

/-- The document of an export is the one that the platform's reading of it gives. -/
theorem Platform.reshape_of_parseDocument {p : Platform} {exported : Json} {d : Document}
    (hparse : p.parseDocument exported = .ok d) : p.reshape exported = .ok d := by
  unfold parseDocument at hparse
  cases hshape : p.reshape exported with
  | error e =>
      rw [hshape] at hparse
      cases hparse
  | ok other =>
      rw [hshape] at hparse
      cases hcheck : other.check with
      | error e => simp [hcheck, bind, Except.bind] at hparse
      | ok _ => simpa [hcheck, bind, Except.bind, pure, Except.pure] using hparse

/-- What is converted of an export is the document that it is parsed to. -/
theorem Conversion.exists_parse_of_ofJson {g : Registry} {exported : Json} {c : Conversion}
    (hc : ofJson g exported = .ok c) :
    ∃ d, g.platform.parseDocument exported = .ok d ∧ ofDocument g d = .ok c := by
  unfold ofJson at hc
  split at hc
  · cases hc
  · next d hparse => exact ⟨d, hparse, hc⟩

end WorkflowGraph
