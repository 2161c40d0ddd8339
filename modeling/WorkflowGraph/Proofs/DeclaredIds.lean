/-
# Branches are selected by their ids

An edge of a Dify export leaves a condition or a classifier by the id of a branch or class.
Several elements of the list may declare one id, and others may leave theirs blank. The
decoder fills a blank id with the position of the element, and an edge means the first
element that has its id afterwards. So it selects the first element that declares the id,
unless a blank one before it stands at the very position that the id spells. Then it
selects the blank one, which the export does not give the id.
-/

import WorkflowGraph.Proofs.BranchPositions
import WorkflowGraph.Proofs.GroupedNodes

namespace WorkflowGraph

/-- Different numbers are written differently. -/
theorem Text.ofInt_natCast_injective : Function.Injective fun n : Nat => Text.ofInt n := by
  intro m n hsame
  have hdigits : digitsOfNat m = digitsOfNat n := String.ofList_injective hsame
  rw [← natOfDigits_digitsOfNat m, hdigits, natOfDigits_digitsOfNat]

section Flat

variable {g : Registry} {d : Document}

theorem Record.unliftedLinks_eq_nil {p : Platform} {rs : List Record}
    (hflat : ∀ r ∈ rs, r.blocks = none) : Record.unliftedLinks p rs = [] := by
  induction rs with
  | nil => rfl
  | cons r rs ih =>
      obtain ⟨hr, hrs⟩ := List.forall_mem_cons.mp hflat
      obtain ⟨id, tag, title, params, inputs, outputs, blocks, presentation⟩ := r
      obtain rfl : blocks = none := hr
      rw [Record.unliftedLinks, ih hrs, Blocks.unliftedLinks?, ite_self, List.append_nil]

namespace Document

theorem innerLinks_eq_nil {t : Nested Record} (hflat : ∀ r ∈ t.members, r.blocks = none)
    (hsections : ∀ entry ∈ d.sections.entries, entry.2.links = []) : d.innerLinks g t = [] := by
  induction t with
  | nil => rfl
  | leaf r rest ih =>
      obtain ⟨hr, hrest⟩ := List.forall_mem_cons.mp hflat
      rw [innerLinks, ih hrest, hr, Blocks.unliftedLinks?, ite_self, List.append_nil]
  | loop r inner rest ihInner ihRest =>
      obtain ⟨hr, hbelow⟩ := List.forall_mem_cons.mp hflat
      obtain ⟨hinner, hrest⟩ := List.forall_mem_append.mp hbelow
      have hbody : (d.body? r).toList.flatMap Blocks.links = [] := by
        have hsection : d.body? r = Table.get? r.id d.sections := by
          rw [body?, hr]
          rfl
        rw [hsection]
        cases hfound : Table.get? r.id d.sections with
        | none => rfl
        | some body =>
            have hnone := hsections _ (Table.mem_of_get?_eq_some hfound)
            simpa using hnone
      rw [innerLinks, hbody, ihInner hinner, ihRest hrest, List.append_nil, List.append_nil]

/-- Where all bodies stand in sections, and these list no links, the captured links are those
of the root. -/
theorem capturedLinks_eq_links (hflat : ∀ r, d.Holds r → r.blocks = none)
    (hsections : ∀ entry ∈ d.sections.entries, entry.2.links = []) {t : Nested Record}
    (ht : d.Unrolls g d.records t) : d.capturedLinks g t = d.links := by
  have hmembers : ∀ r ∈ t.members, r.blocks = none := by
    intro r hr
    obtain ⟨place, hlies⟩ := Nested.exists_lies Record.id .root hr
    exact hflat r (holds_of_mem_allRecords (ht.mem_allRecords hlies))
  have horphans : (d.sections.entries.filter fun entry =>
      !(Lift.openedSections d t).contains entry.1).flatMap
        (fun entry => entry.2.unliftedLinks g.platform) = [] := by
    rw [List.flatMap_eq_nil_iff]
    intro entry hentry
    have hmem := (List.mem_filter.mp hentry).1
    have hrecords : ∀ r ∈ entry.2.records, r.blocks = none :=
      fun r hr => hflat r (.nested hmem (.here hr))
    obtain ⟨name, records, links⟩ := entry
    have hlinks : links = [] := hsections _ hmem
    rw [Blocks.unliftedLinks, Record.unliftedLinks_eq_nil hrecords, hlinks, List.append_nil]
  rw [capturedLinks, innerLinks_eq_nil hmembers hsections, horphans, List.append_nil,
    List.append_nil]

end Document

end Flat

namespace Handle

theorem position?_eq_some_iff {ids : List String} {id : String} {k : Nat} :
    position? ids id = some k ↔ ids[k]? = some id ∧ ∀ j < k, ids[j]? ≠ some id := by
  rw [position?, List.findIdx?_eq_some_iff_getElem]
  constructor
  · rintro ⟨hk, hfound, hearlier⟩
    refine ⟨List.getElem?_eq_some_iff.mpr ⟨hk, eq_of_beq hfound⟩, fun j hj hsame => ?_⟩
    obtain ⟨hlength, rfl⟩ := List.getElem?_eq_some_iff.mp hsame
    exact hearlier j hj (beq_self_eq_true _)
  · rintro ⟨hfound, hearlier⟩
    obtain ⟨hk, rfl⟩ := List.getElem?_eq_some_iff.mp hfound
    refine ⟨hk, beq_self_eq_true _, fun j hj hsame => hearlier j hj ?_⟩
    rw [List.getElem?_eq_getElem (hj.trans hk), eq_of_beq hsame]

end Handle

namespace Dify

/-- The links that an export lists; none if it cannot be read. -/
def exportedLinks (exported : Json) : List Link :=
  match Canvas.read (graphPart exported) with
  | .ok canvas => canvas.links
  | .error _ => []

/-- All links of an export stand at the root, and no others are captured from it. -/
theorem capturedLinks_of_parse {exported : Json} {d : Document}
    (hparse : parse exported = .ok d) {g : Registry} {t : Nested Record}
    (ht : d.Unrolls g d.records t) : d.capturedLinks g t = exportedLinks exported := by
  have hflat : ∀ r, d.Holds r → r.blocks = none := by
    intro r hr
    obtain ⟨e, -, rfl⟩ := exists_toRecord_of_parse hparse hr
    exact blocks_toRecord e
  obtain ⟨canvas, hread, rfl⟩ := exists_canvas_of_parse hparse
  have hsections : ∀ entry ∈ canvas.toDocument.sections.entries, entry.2.links = [] := by
    intro entry hentry
    rw [(eq_of_mem_sections hentry).1]
  rw [Document.capturedLinks_eq_links hflat hsections ht, exportedLinks, hread]
  rfl

/-- The id that each element of a list declares; blank where it has none. -/
def writtenIds (b : BranchList) : List String :=
  b.items.map fun j => Loose.text (j.get? (if b.tag = "if-else" then "case_id" else "id"))

/-- Ids with the position of each blank one in its place. -/
def filledIds (ids : List String) : List String :=
  ids.mapIdx fun k id => if id.isEmpty then Text.ofInt k else id

/-- An element has an id in the filled list if it declares it, or if it is blank and the id
spells its position. -/
theorem getElem?_filledIds_eq_some_iff {ids : List String} {id : String} (hid : id ≠ "")
    (k : Nat) : (filledIds ids)[k]? = some id ↔
      ids[k]? = some id ∨ (ids[k]? = some "" ∧ Text.ofInt k = id) := by
  rw [filledIds, List.getElem?_mapIdx]
  cases hwritten : ids[k]? with
  | none => simp
  | some written =>
      by_cases hblank : written = ""
      · subst hblank
        simp [hid.symm]
      · simp [hblank]

theorem idOrIndex_eq (id : Option String) (k : Nat) :
    Decoder.idOrIndex id k = if (id.getD "").isEmpty then Text.ofInt k else id.getD "" := by
  cases id with
  | none => rfl
  | some id => cases hblank : id.isEmpty <;> simp [Decoder.idOrIndex, Option.filter, hblank]

/-- A node that lists what an export declares has the declared ids, with positions in place
of the blank ones. -/
theorem declaredIds_of_lists {n : Node} {b : BranchList}
    (hkind : Platform.dify.kindOfTag? b.tag = some n.kind) (hconfig : n.config.kind = n.kind)
    (hlists : n.config.Lists .dify b.items) :
    Handle.declaredIds n = filledIds (writtenIds b) := by
  have hmem := Registry.mem_nodeTags_of_kindOfTag? hkind
  have hconditions : ∀ entry ∈ Platform.dify.nodeTags,
      entry.2 = .condition → entry.1 = "if-else" := by decide
  have hclassifiers : ∀ entry ∈ Platform.dify.nodeTags,
      entry.2 = .classifier → entry.1 ≠ "if-else" := by decide
  have hfilled : ∀ (key : String) (j : Json) (k : Nat),
      Decoder.idOrIndex (Loose.text? (j.get? key)) k =
        if (Loose.text (j.get? key)).isEmpty then Text.ofInt k else Loose.text (j.get? key) :=
    fun _ _ _ => idOrIndex_eq _ _
  rw [Handle.declaredIds, filledIds, writtenIds]
  cases hnode : n.config with
  | condition cases =>
      rw [hnode] at hconfig hlists
      have hids : cases.map BranchCase.id = (b.items.mapIdx caseOf).map BranchCase.id := by
        rw [← show _ = b.items.mapIdx caseOf from hlists, List.map_map]
        rfl
      show cases.map BranchCase.id = _
      rw [hids, if_pos (hconditions _ hmem hconfig.symm), map_mapIdx, map_eq_mapIdx,
        List.mapIdx_mapIdx]
      exact congrArg (b.items.mapIdx ·) (funext₂ fun k j => hfilled "case_id" j k)
  | classifier c =>
      rw [hnode] at hconfig hlists
      have hids : c.classes = b.items.mapIdx classOf := hlists
      show c.classes.map ClassLabel.id = _
      rw [hids, if_neg (hclassifiers _ hmem hconfig.symm), map_mapIdx, map_eq_mapIdx,
        List.mapIdx_mapIdx]
      exact congrArg (b.items.mapIdx ·) (funext₂ fun k j => hfilled "id" j k)
  | _ =>
      rw [hnode] at hlists
      exact hlists.elim

/-- What an edge selects that leaves by an id which is first declared at a position: the
element there, exactly if no blank element before it stands at the position that the id
spells, and that blank element otherwise. -/
structure SelectsDeclared (ids : List String) (id : String) (k : Nat) (h : Handle) : Prop where
  first : h = .case k ↔ ∀ j < k, ids[j]? = some "" → Text.ofInt j ≠ id
  shadowed : ∀ j < k, ids[j]? = some "" → Text.ofInt j = id → h = .case j

section Filling

variable {ids : List String} {id : String} {k : Nat}

/-- No two elements are filled with one id, so a blank element with the id that comes before
all that declare it is the first to have it. -/
theorem position?_filledIds_of_blank (hid : id ≠ "") (hplace : Handle.position? ids id = some k)
    {j : Nat} (hj : j < k) (hblank : ids[j]? = some "") (hspells : Text.ofInt j = id) :
    Handle.position? (filledIds ids) id = some j := by
  rw [Handle.position?_eq_some_iff] at hplace ⊢
  refine ⟨(getElem?_filledIds_eq_some_iff hid j).mpr (Or.inr ⟨hblank, hspells⟩),
    fun i hi hfound => ?_⟩
  rcases (getElem?_filledIds_eq_some_iff hid i).mp hfound with hdeclared | ⟨-, hother⟩
  · exact hplace.2 i (hi.trans hj) hdeclared
  · have hsame : i = j := Text.ofInt_natCast_injective (hother.trans hspells.symm)
    omega

theorem position?_filledIds (hid : id ≠ "") (hplace : Handle.position? ids id = some k)
    (hother : ∀ j < k, ids[j]? = some "" → Text.ofInt j ≠ id) :
    Handle.position? (filledIds ids) id = some k := by
  rw [Handle.position?_eq_some_iff] at hplace ⊢
  refine ⟨(getElem?_filledIds_eq_some_iff hid k).mpr (Or.inl hplace.1), fun j hj hfound => ?_⟩
  rcases (getElem?_filledIds_eq_some_iff hid j).mp hfound with hdeclared | ⟨hblank, hspells⟩
  · exact hplace.2 j hj hdeclared
  · exact hother j hj hblank hspells

/-- The rule for the edges that leave a node whose ids are filled in. -/
theorem selectsDeclared_ofSpelling {n : Node} (hids : Handle.declaredIds n = filledIds ids)
    (hid : id ≠ "") (hconditional : id ≠ "source")
    (hplace : Handle.position? ids id = some k) :
    SelectsDeclared ids id k (.ofSpelling .dify (some id) n) := by
  have hselects : ∀ i, Handle.position? (filledIds ids) id = some i →
      Handle.ofSpelling .dify (some id) n = .case i := by
    intro i hi
    rw [Handle.ofSpelling_of_ne hid]
    exact Handle.ofDify_of_position? hconditional (hids ▸ hi)
  have hshadowed : ∀ j < k, ids[j]? = some "" → Text.ofInt j = id →
      Handle.ofSpelling .dify (some id) n = .case j := fun j hj hblank hspells =>
    hselects j (position?_filledIds_of_blank hid hplace hj hblank hspells)
  refine ⟨⟨fun hfirst j hj hblank hspells => ?_, fun hother => ?_⟩, hshadowed⟩
  · have hsame := Handle.case.inj (hfirst.symm.trans (hshadowed j hj hblank hspells))
    omega
  · exact hselects k (position?_filledIds hid hplace hother)

end Filling

/-- The edges that leave a node of the graph select its branches by the ids in the list that
the export declares for the node. -/
structure SelectsByIds (links : List Link) (b : BranchList) (n : Node) (edges : List Edge) :
    Prop where
  id : b.id = n.id
  kind : Platform.dify.kindOfTag? b.tag = some n.kind
  branches : n.config.Lists .dify b.items
  listed : ∀ e ∈ edges, e.source = n.id → ∃ link ∈ links, e = link.toEdge .dify n
  selected : ∀ e ∈ edges, e.source = n.id → ∀ link ∈ links, e = link.toEdge .dify n →
    ∀ id k, link.sourceHandle = some id → id ≠ "" → id ≠ "source" →
      Handle.position? (writtenIds b) id = some k →
        SelectsDeclared (writtenIds b) id k e.sourceHandle

end Dify

namespace Conversion

variable {exported : Json} {c : Conversion}

/-- On every level of the graph of a Dify export, each edge that leaves a condition or a
classifier by a declared id selects the first branch that declares it, whatever the other
ids are, unless a blank id before it is filled with the same text. -/
theorem ofJson_selectsByIds (hc : ofJson (.withDefaults .dify) exported = .ok c) {level : Graph}
    (hlevel : c.graph.HasLevel level) {n : Node} (hn : n ∈ level.nodes)
    (hbranching : n.kind.isBranching = true) :
    ∃ b ∈ Platform.branchLists .dify exported,
      Dify.SelectsByIds (Dify.exportedLinks exported) b n level.edges := by
  obtain ⟨d, hparse, hconverts⟩ := exists_parse_of_ofJson hc
  rw [Registry.Derived.defaults.platform_eq] at hparse
  have hg : (Registry.withDefaults .dify).UsesBuiltIns := Registry.Derived.defaults.usesBuiltIns
  obtain ⟨resolver, t, -, ht, hmade⟩ := madeOf_of_ok hg hconverts
  have hrules : level.KeepsLevelRules := keepsLevelRules_of_ok hconverts hlevel
  obtain ⟨place, r, own, part, present, hr, hown, hfinishes⟩ := (hmade level hlevel).nodes n hn
  obtain ⟨b, hdeclares, hid, hkind, hlists⟩ :=
    exists_taggedList_of_finishes hparse hr hown hfinishes hbranching
  refine ⟨b, hdeclares.mem_branchLists, hid, hkind, hlists, fun e he hsource => ?_, ?_⟩
  · obtain ⟨link, hlink, hedge⟩ := (hmade level hlevel).exists_link hrules hn he hsource
    rw [Dify.capturedLinks_of_parse (Platform.reshape_of_parseDocument hparse) ht] at hlink
    rw [Registry.Derived.defaults.platform_eq] at hedge
    exact ⟨link, hlink, hedge⟩
  · rintro e - - link - rfl id k hhandle hne hconditional hplace
    have hids := Dify.declaredIds_of_lists hkind (hrules.nodes n hn).config hlists
    rw [Link.toEdge, hhandle]
    exact Dify.selectsDeclared_ofSpelling hids hne hconditional hplace

/-- A condition with a blank id, a repeated id and an id that spells the position of the
blank one, and a classifier with a number as id, the same id as a text, and no id. -/
def mixedIds : Json :=
  .obj [("edges", .arr
    [.obj [("source", .str "test"), ("sourceHandle", .str "yes"), ("target", .str "pick")],
     .obj [("source", .str "test"), ("sourceHandle", .str "0"), ("target", .str "done")],
     .obj [("source", .str "test"), ("sourceHandle", .str "false"), ("target", .str "done")],
     .obj [("source", .str "pick"), ("sourceHandle", .str "5"), ("target", .str "done")]]),
   ("nodes", .arr
    [.obj [("data", .obj [("cases", .arr
        [.obj [("case_id", .str "")], .obj [("case_id", .str "yes")],
         .obj [("case_id", .str "yes")], .obj [("case_id", .str "0")]]),
        ("type", .str "if-else")]), ("id", .str "test")],
     .obj [("data", .obj [("classes", .arr
        [.obj [("id", .nat 5)], .obj [("id", .str "5")], .obj []]),
        ("type", .str "question-classifier")]), ("id", .str "pick")],
     .obj [("data", .obj [("type", .str "end")]), ("id", .str "done")]])]

theorem ofJson_selectsByIds_mixedIds :
    ∃ c, ofJson (.withDefaults .dify) mixedIds = .ok c ∧
      (c.graph.nodes.map fun n => (n.id, n.kind.isBranching)) =
        [("test", true), ("pick", true), ("done", false)] ∧
      (c.graph.edges.map fun e => (e.source, e.sourceHandle)) =
        [("test", .case 1), ("test", .case 0), ("test", .fallthrough), ("pick", .case 0)] ∧
      ∀ n ∈ c.graph.nodes, n.kind.isBranching = true →
        ∃ b ∈ Platform.branchLists .dify mixedIds,
          Dify.SelectsByIds (Dify.exportedLinks mixedIds) b n c.graph.edges := by
  obtain ⟨c, hc, hgraph⟩ := exists_ok_of_any (x := ofJson (.withDefaults .dify) mixedIds)
    (q := fun c => (c.graph.nodes.map fun n => (n.id, n.kind.isBranching)) ==
        [("test", true), ("pick", true), ("done", false)] &&
      (c.graph.edges.map fun e => (e.source, e.sourceHandle)) ==
        [("test", .case 1), ("test", .case 0), ("test", .fallthrough), ("pick", .case 0)])
    (by decide +kernel)
  simp only [Bool.and_eq_true, beq_iff_eq] at hgraph
  exact ⟨c, hc, hgraph.1, hgraph.2, fun n hn hbranching =>
    ofJson_selectsByIds hc .self hn hbranching⟩

/-- A condition whose second branch declares the position of the first, which has no id. -/
def blankBeforeZero : Json :=
  .obj [("edges", .arr [.obj [("id", .str "e"), ("source", .str "test"),
      ("sourceHandle", .str "0"), ("target", .str "done")]]),
   ("nodes", .arr
    [.obj [("data", .obj [("cases", .arr
        [.obj [("case_id", .str "")], .obj [("case_id", .str "0")]]),
        ("type", .str "if-else")]), ("id", .str "test")],
     .obj [("data", .obj [("type", .str "end")]), ("id", .str "done")]])]

/-- The only branch that declares the handle of the edge is the second one, and the edge
selects the first. -/
theorem blankBeforeZero_selectsBlank :
    ∃ c, ofJson (.withDefaults .dify) blankBeforeZero = .ok c ∧
      ((Platform.branchLists .dify blankBeforeZero).map fun b => (b.id, Dify.writtenIds b)) =
        [("test", ["", "0"])] ∧
      Handle.position? ["", "0"] "0" = some 1 ∧
      ((Dify.exportedLinks blankBeforeZero).map fun link => (link.source, link.sourceHandle)) =
        [("test", some "0")] ∧
      ∃ e, c.graph.edges = [e] ∧ e.source = "test" ∧ e.sourceHandle = .case 0 := by
  obtain ⟨c, hc, hedges⟩ := exists_ok_of_any (x := ofJson (.withDefaults .dify) blankBeforeZero)
    (q := fun c => (c.graph.edges.map fun e => (e.source, e.sourceHandle)) ==
      [("test", .case 0)]) (by decide +kernel)
  obtain ⟨e, hgraph, hedge⟩ := List.map_eq_singleton_iff.mp (eq_of_beq hedges)
  obtain ⟨hsource, hhandle⟩ := Prod.mk.inj hedge
  exact ⟨c, hc, by decide +kernel, by decide, by decide +kernel, e, hgraph, hsource, hhandle⟩

end Conversion

end WorkflowGraph
