/-
# The blocks of a canvas that reach the conversion

A node of a Coze canvas may hold blocks and edges whatever its tag is, but only a loop, by its
number, brings them into the document. The registry decides afterwards what a loop becomes:
its body is lifted if the loop can be decoded as an iteration, it is reported if the loop
becomes some other node or none, and it is overlooked if the loop is made an end node. So what
a node holds is accounted for exactly if every node around it is a loop and loops are not made
end nodes; anything else is neither in the graph nor in the report.
-/

import WorkflowGraph.Proofs.CarriedPointers
import WorkflowGraph.Proofs.DroppedLinks
import WorkflowGraph.Proofs.ExportedNodes
import WorkflowGraph.Proofs.ReportedRecords

namespace WorkflowGraph

mutual
/-- Where no tag is that of a loop-start record, no body of a dropped list is overlooked. -/
theorem Record.overlookedBodies_eq_nil {p : Platform} (hplain : ∀ tag, p.isPseudoTag tag = false) :
    (rs : List Record) → Record.overlookedBodies p rs = []
  | [] => by rw [Record.overlookedBodies]
  | ⟨id, tag, _, _, _, _, blocks, _⟩ :: rs => by
    rw [Record.overlookedBodies, hplain, if_neg Bool.false_ne_true,
      Blocks.overlookedBodies_eq_nil hplain blocks, Record.overlookedBodies_eq_nil hplain rs]
    rfl

theorem Blocks.overlookedBodies_eq_nil {p : Platform} (hplain : ∀ tag, p.isPseudoTag tag = false) :
    (blocks : Option Blocks) → Blocks.overlookedBodies p blocks = []
  | none => by rw [Blocks.overlookedBodies]
  | some ⟨records, _⟩ => by
    rw [Blocks.overlookedBodies, Record.overlookedBodies_eq_nil hplain records]
end

namespace Coze

/-! ## The nodes that have records -/

namespace NodeEntry

mutual
/-- What holds of the empty list, and of a list if it holds of its tail and of what its head
holds, holds of every list of nodes. -/
theorem lists_induction {motive : List NodeEntry → Prop} (nil : motive [])
    (cons : ∀ e entries, motive e.held → motive entries → motive (e :: entries)) :
    (entries : List NodeEntry) → motive entries
  | [] => nil
  | e :: entries => cons e entries (held_induction nil cons e) (lists_induction nil cons entries)

theorem held_induction {motive : List NodeEntry → Prop} (nil : motive [])
    (cons : ∀ e entries, motive e.held → motive entries → motive (e :: entries)) :
    (e : NodeEntry) → motive e.held
  | ⟨_, _, _, _, blocks, _⟩ => option_induction nil cons blocks

theorem option_induction {motive : List NodeEntry → Prop} (nil : motive [])
    (cons : ∀ e entries, motive e.held → motive entries → motive (e :: entries)) :
    (blocks : Option (List NodeEntry)) → motive (blocks.getD [])
  | none => nil
  | some entries => lists_induction nil cons entries
end

/-- Whether a node has the tag of a loop. -/
def isLoop (e : NodeEntry) : Bool :=
  e.tag == "21"

/-- The body that is stored on the record of a loop. -/
def body (e : NodeEntry) : Blocks :=
  ⟨toRecords e.held, e.links.getD []⟩

mutual
/-- A node, and the nodes below it that have records: those with nothing but loops between. -/
def carriedFrom : NodeEntry → List NodeEntry
  | ⟨id, type, board, data, blocks, links⟩ =>
    let e : NodeEntry := ⟨id, type, board, data, blocks, links⟩
    e :: if e.isLoop then optionCarried blocks else []

/-- The nodes of a list that may be absent, with those below them that have records. -/
def optionCarried : Option (List NodeEntry) → List NodeEntry
  | none => []
  | some entries => carried entries

/-- The nodes of a list, with those below them that have records. -/
def carried : List NodeEntry → List NodeEntry
  | [] => []
  | e :: entries => carriedFrom e ++ carried entries
end

theorem carried_cons (e : NodeEntry) (entries : List NodeEntry) : carried (e :: entries) =
    e :: ((if e.isLoop then carried e.held else []) ++ carried entries) := by
  obtain ⟨id, type, board, data, blocks, links⟩ := e
  rw [carried, carriedFrom]
  cases blocks <;> simp [optionCarried, held, carried]

theorem families_cons (e : NodeEntry) (entries : List NodeEntry) :
    families (e :: entries) = e :: (families e.held ++ families entries) := by
  rw [families, family_eq, List.cons_append]

/-- The nodes that have records are nodes of the list, at some depth. -/
theorem carried_sublist (entries : List NodeEntry) :
    (carried entries).Sublist (families entries) := by
  induction entries using lists_induction with
  | nil => exact List.Sublist.slnil
  | cons e entries ihHeld ih =>
    rw [carried_cons, families_cons]
    refine List.Sublist.cons_cons e (List.Sublist.append ?_ ih)
    split
    · exact ihHeld
    · exact List.nil_sublist _

/-- The bodies of the records are those of the loops that have records. -/
theorem bodies_toRecords (entries : List NodeEntry) : Record.bodies (toRecords entries) =
    ((carried entries).filter isLoop).map fun e => (e.id, e.body) := by
  induction entries using lists_induction with
  | nil =>
    rw [toRecords, Record.bodies, carried]
    rfl
  | cons e entries ihHeld ih =>
    rw [toRecords, Record.bodies_cons, ih, id_toRecord, blocks_toRecord, carried_cons]
    by_cases hloop : e.tag = "21"
    · have hflag : e.isLoop = true := beq_iff_eq.mpr hloop
      rw [if_pos hloop, if_pos hflag, List.filter_cons_of_pos hflag, List.filter_append,
        List.map_cons, List.map_append, ← ihHeld, Blocks.bodies_some]
      rfl
    · have hflag : ¬ e.isLoop = true := fun h => hloop (beq_iff_eq.mp h)
      rw [if_neg hloop, if_neg hflag, List.filter_cons_of_neg hflag, Blocks.bodies]
      rfl

/-- The nodes that have records are those of the list, and those that a loop among them
holds. -/
theorem carried_perm (entries : List NodeEntry) :
    (entries ++ ((carried entries).filter isLoop).flatMap held).Perm (carried entries) := by
  induction entries using lists_induction with
  | nil => exact List.Perm.nil
  | cons e entries ihHeld ih =>
    rw [carried_cons, List.cons_append]
    by_cases hflag : e.isLoop = true
    · rw [if_pos hflag, List.filter_cons_of_pos hflag, List.filter_append, List.flatMap_cons,
        List.flatMap_append, ← List.append_assoc e.held]
      exact ((List.perm_append_comm_assoc _ _ _).trans (ihHeld.append ih)).cons e
    · rw [if_neg hflag, List.filter_cons_of_neg hflag]
      exact ih.cons e

end NodeEntry

namespace Canvas

variable (g : Registry) (canvas : Canvas)

/-- The nodes of a canvas that are accounted for: those that have records, or only the
outermost ones if loops are made end nodes. -/
def reached : List NodeEntry :=
  if g.kind? "21" = some .finish then canvas.nodes else NodeEntry.carried canvas.nodes

/-- The loops of a canvas whose bodies are accounted for. -/
def reachedLoops : List NodeEntry :=
  if g.kind? "21" = some .finish then [] else
    (NodeEntry.carried canvas.nodes).filter NodeEntry.isLoop

/-- The edges of a canvas that are accounted for: the outermost ones, and those of the loops
whose bodies are. -/
def reachedLinks : List Link :=
  canvas.links ++ (canvas.reachedLoops g).flatMap fun e => e.links.getD []

variable {g canvas}

/-- The nodes that are accounted for are the outermost ones and those in the bodies that
are. -/
theorem reached_perm :
    (canvas.nodes ++ (canvas.reachedLoops g).flatMap NodeEntry.held).Perm
      (canvas.reached g) := by
  unfold reached reachedLoops
  split
  · rw [List.flatMap_nil, List.append_nil]
  · exact NodeEntry.carried_perm canvas.nodes

theorem reached_subset : canvas.reached g ⊆ NodeEntry.families canvas.nodes := by
  unfold reached
  split
  · exact fun e he => NodeEntry.mem_families he
  · exact (NodeEntry.carried_sublist canvas.nodes).subset

/-! ## The lists of the document -/

/-- The bodies that loops store on their records. -/
def bodiesOf (loops : List NodeEntry) : List (String × Blocks) :=
  loops.map fun e => (e.id, e.body)

theorem records_bodiesOf (loops : List NodeEntry) :
    ((bodiesOf loops).flatMap fun entry => entry.2.records) =
      (loops.flatMap NodeEntry.held).map NodeEntry.toRecord := by
  rw [bodiesOf, List.flatMap_map, List.map_flatMap]
  exact List.flatMap_congr fun e _ => toRecords_eq_map e.held

theorem links_bodiesOf (loops : List NodeEntry) :
    ((bodiesOf loops).flatMap fun entry => entry.2.links) =
      loops.flatMap fun e => e.links.getD [] := by
  rw [bodiesOf, List.flatMap_map]
  rfl

theorem bodies_toDocument (canvas : Canvas) : canvas.toDocument.bodies =
    bodiesOf ((NodeEntry.carried canvas.nodes).filter NodeEntry.isLoop) := by
  rw [Document.bodies, toDocument, Table.entries_empty, List.flatMap_nil, List.append_nil]
  exact NodeEntry.bodies_toRecords canvas.nodes

/-- The records of the document are those of the nodes that have one. -/
theorem allRecords_perm (canvas : Canvas) : canvas.toDocument.allRecords.Perm
    ((NodeEntry.carried canvas.nodes).map NodeEntry.toRecord) := by
  rw [Document.allRecords, Document.lists, List.flatMap_cons, List.flatMap_map,
    bodies_toDocument, records_bodiesOf]
  show (NodeEntry.toRecords canvas.nodes ++ _).Perm _
  rw [toRecords_eq_map, ← List.map_append]
  exact (NodeEntry.carried_perm canvas.nodes).map _

/-- Nodes of different ids, at any depth, have records of different ids. -/
theorem distinctIds (hids : ((NodeEntry.families canvas.nodes).map NodeEntry.id).Nodup) :
    canvas.toDocument.DistinctIds := by
  have hsame : ((NodeEntry.carried canvas.nodes).map NodeEntry.toRecord).map Record.id =
      (NodeEntry.carried canvas.nodes).map NodeEntry.id := by
    rw [List.map_map]
    exact List.map_congr_left fun e _ => id_toRecord e
  rw [Document.DistinctIds, ((allRecords_perm canvas).map Record.id).nodup_iff, hsame]
  exact hids.sublist ((NodeEntry.carried_sublist canvas.nodes).map NodeEntry.id)

/-- Only the records of loops store bodies. -/
def StoresOnLoops (rs : List Record) : Prop :=
  ∀ r ∈ rs, ∀ b, r.blocks = some b → r.tag = "21"

theorem storesOnLoops (canvas : Canvas) : StoresOnLoops canvas.toDocument.allRecords := by
  intro r hr b hblocks
  obtain ⟨e, -, rfl⟩ := List.mem_map.mp ((allRecords_perm canvas).mem_iff.mp hr)
  rw [blocks_toRecord] at hblocks
  split at hblocks
  next htag => rw [tag_toRecord, htag]
  next => cases hblocks

variable {t : Nested Record}

theorem isPseudoTag_eq_false (hcoze : g.platform = .coze) (tag : String) :
    g.platform.isPseudoTag tag = false := by
  rw [hcoze]
  rfl

/-- If loops are not made end nodes, no body is overlooked. -/
theorem overlookedAt_eq_nil (hcoze : g.platform = .coze) (hloops : g.kind? "21" ≠ some .finish)
    {rs : List Record} (hstored : StoresOnLoops rs) {r : Record} (hr : r ∈ rs) :
    Document.overlookedAt g r = [] := by
  have hplain := isPseudoTag_eq_false hcoze
  unfold Document.overlookedAt
  cases hblocks : r.blocks with
  | none => simp [Blocks.bodies, Blocks.overlookedBodies]
  | some b =>
    have hkind : g.kind? r.tag ≠ some .finish := by rwa [hstored r hr b hblocks]
    rw [if_neg (by simp [hplain, hkind]), Blocks.overlookedBodies_eq_nil hplain, ite_self]

/-- If loops are made end nodes, no body is dropped. -/
theorem droppedAt_eq_nil (hloops : g.kind? "21" = some .finish) {rs : List Record}
    (hstored : StoresOnLoops rs) {r : Record} (hr : r ∈ rs) : Document.droppedAt g r = [] := by
  unfold Document.droppedAt
  cases hblocks : r.blocks with
  | none => simp [Blocks.droppedBodies]
  | some b => rw [if_pos (Or.inr (Or.inl (by rwa [hstored r hr b hblocks])))]

/-- If loops are made end nodes, no body is lifted. -/
theorem liftedBodies_eq_nil (hg : g.UsesBuiltIns) (hloops : g.kind? "21" = some .finish)
    {rs : List Record} (ht : canvas.toDocument.Unrolls g rs t) (hstored : StoresOnLoops rs) :
    canvas.toDocument.liftedBodies t = [] := by
  induction ht with
  | nil => rfl
  | leaf _ _ ih => exact ih fun r hr => hstored r (List.mem_cons_of_mem _ hr)
  | @loop r rs body inner t hopen _ _ _ _ =>
    obtain ⟨hloop, hbody⟩ := Document.opened?_eq_some_iff.mp hopen
    have hblocks : r.blocks = some body := by
      cases hblocks : r.blocks with
      | none => simp [Document.body?, hblocks, toDocument] at hbody
      | some b => simpa [Document.body?, hblocks] using hbody
    have hkind := Registry.kind?_of_isLoop hg hloop
    rw [hstored r List.mem_cons_self body hblocks, hloops] at hkind
    cases hkind

/-- The bodies that are lifted or dropped are those that are accounted for. -/
theorem bodies_perm (hcoze : g.platform = .coze) (hg : g.UsesBuiltIns)
    (ht : canvas.toDocument.Unrolls g canvas.toDocument.records t)
    (hids : canvas.toDocument.DistinctIds) :
    (canvas.toDocument.liftedBodies t ++ canvas.toDocument.droppedBodies g t).Perm
      (bodiesOf (canvas.reachedLoops g)) := by
  have hmembers := hids.idsApart hg t ht
  have hstored : StoresOnLoops t.members := fun r hr =>
    storesOnLoops canvas r (Document.members_subset hg ht hmembers hr)
  have hbodies := Document.bodies_perm hg ht hmembers
  rw [bodies_toDocument, ← List.append_assoc] at hbodies
  unfold reachedLoops
  by_cases hloops : g.kind? "21" = some .finish
  · have hlifted := liftedBodies_eq_nil hg hloops ht fun r hr =>
      storesOnLoops canvas r (List.mem_append_left _ hr)
    have hdropped : canvas.toDocument.droppedBodies g t = [] := by
      rw [Document.droppedBodies, List.flatMap_eq_nil_iff.mpr fun r hr =>
        droppedAt_eq_nil hloops hstored hr]
      rfl
    rw [if_pos hloops, hlifted, hdropped]
    exact List.Perm.nil
  · have hoverlooked : canvas.toDocument.overlookedBodies g t = [] := by
      rw [Document.overlookedBodies, List.flatMap_eq_nil_iff.mpr fun r hr =>
        overlookedAt_eq_nil hcoze hloops hstored hr]
      rfl
    rw [hoverlooked, List.append_nil] at hbodies
    rw [if_neg hloops]
    exact hbodies.symm

/-- The records of the lists that are lifted or dropped are those of the nodes that are
accounted for. -/
theorem records_perm (hcoze : g.platform = .coze) (hg : g.UsesBuiltIns)
    (ht : canvas.toDocument.Unrolls g canvas.toDocument.records t)
    (hids : canvas.toDocument.DistinctIds) :
    (t.members ++ (canvas.toDocument.droppedBodies g t).flatMap fun entry => entry.2.records).Perm
      ((canvas.reached g).map NodeEntry.toRecord) := by
  have hbodies := (bodies_perm hcoze hg ht hids).flatMap_right fun entry => entry.2.records
  rw [List.flatMap_append, records_bodiesOf] at hbodies
  refine (ht.members_perm.symm.append_right _).trans ?_
  rw [List.append_assoc]
  refine (hbodies.append_left _).trans ?_
  show (NodeEntry.toRecords canvas.nodes ++ _).Perm _
  rw [toRecords_eq_map, ← List.map_append]
  exact reached_perm.map _

/-- The links of the lists that are lifted or dropped are those that are accounted for. -/
theorem links_perm (hcoze : g.platform = .coze) (hg : g.UsesBuiltIns)
    (ht : canvas.toDocument.Unrolls g canvas.toDocument.records t)
    (hids : canvas.toDocument.DistinctIds) :
    (canvas.toDocument.liftedLinks t ++ canvas.toDocument.droppedLinks g t).Perm
      (canvas.reachedLinks g) := by
  have hbodies := (bodies_perm hcoze hg ht hids).flatMap_right fun entry => entry.2.links
  rw [List.flatMap_append, links_bodiesOf] at hbodies
  rw [Document.liftedLinks, Document.droppedLinks, List.append_assoc]
  exact hbodies.append_left _

end Canvas

end Coze

/-- The records of the lists that are lifted or dropped are those that survive and those that
are dropped, loop-start records apart. -/
theorem Document.survives_or_dropped_iff {g : Registry} {d : Document} {t : Nested Record}
    (hids : (t.members.map Record.id).Nodup) {r : Record}
    (hplain : g.platform.isPseudoTag r.tag = false) :
    (Survives g t r ∨ r ∈ d.droppedRecords g t) ↔
      r ∈ t.members ++ (d.droppedBodies g t).flatMap fun entry => entry.2.records := by
  have hbody : (r ∈ (d.droppedBodies g t).flatMap fun entry => entry.2.reported g.platform) ↔
      r ∈ (d.droppedBodies g t).flatMap fun entry => entry.2.records := by
    simp [Blocks.reported, hplain]
  rw [droppedRecords, List.mem_append, List.mem_append, mem_leftOut_iff hids hplain, hbody]
  by_cases hlives : Survives g t r
  · simp [hlives, hlives.mem_members]
  · simp [hlives]

/-- Fates listed in the order of the links that they tell of account for them. -/
theorem EdgeFate.Accounts.of_forall₂ {links : List Link} {fates : List EdgeFate}
    (htells : List.Forall₂ (fun link fate => TellsOf link fate) links fates) :
    Accounts links fates := by
  have hlength := htells.length_eq
  refine ⟨links.zip fates, ?_, ?_, fun e he => List.forall₂_zip htells he⟩
  · rw [List.map_fst_zip hlength.le]
  · rw [List.map_snd_zip hlength.ge]

namespace Conversion

variable {g : Registry} {d : Document} {l : Lifted} {t : Nested Record} {f : Nested Node}
  {resolver : Resolver}

/-- The ids that the graph has and those that are listed as dropped are the ids of the records
of the lists that are lifted or dropped, if there are no loop-start records. -/
theorem Rebuilt.mem_ids_iff (hg : g.UsesBuiltIns) (hrebuilt : Rebuilt g d l t f)
    (hdecodes : Lift.Decodes g resolver .root t f) (hlifted : Lifted.ofDocument? g d = some l)
    (ht : d.Unrolls g d.records t) (hids : (t.members.map Record.id).Nodup)
    (hplain : ∀ tag, g.platform.isPseudoTag tag = false) {id : String} :
    (id ∈ (assemble g.platform l).1.walk.map Node.id ∨
      id ∈ (assemble g.platform l).2.droppedBlocks) ↔
        id ∈ (t.members ++
          (d.droppedBodies g t).flatMap fun entry => entry.2.records).map Record.id := by
  have hfates (r : Record) := Document.survives_or_dropped_iff (d := d) hids (hplain r.tag)
  have hreport : (assemble g.platform l).2.droppedBlocks = l.harvest.report.droppedBlocks :=
    List.append_nil _
  rw [hrebuilt.mem_ids_walk_iff hg hdecodes, hreport,
    (Lifted.ofDocument?_drops hg hlifted ht).1.mem_iff, List.mem_map, List.mem_map]
  constructor
  · rintro (⟨place, r, hlies, hsome, hid⟩ | ⟨r, hr, hid⟩)
    · exact ⟨r, (hfates r).mp (Or.inl ⟨place, hlies, hsome⟩), hid⟩
    · exact ⟨r, (hfates r).mp (Or.inr hr), hid⟩
  · rintro ⟨r, hr, hid⟩
    rcases (hfates r).mpr hr with ⟨place, hlies, hsome⟩ | hdropped
    · exact Or.inl ⟨place, r, hlies, hsome, hid⟩
    · exact Or.inr ⟨r, hdropped, hid⟩

/-- The links of the lists that are lifted or dropped can be paired with the fates that the
conversion shows. -/
theorem Rebuilt.accounts (hg : g.UsesBuiltIns) (hrebuilt : Rebuilt g d l t f)
    (hdecodes : Lift.Decodes g resolver .root t f) (ht : d.Unrolls g d.records t) :
    EdgeFate.Accounts (d.liftedLinks t ++ d.droppedLinks g t)
      (edgeFates ⟨g.platform, (assemble g.platform l).1, (assemble g.platform l).2⟩) := by
  obtain ⟨told, htold, hfates⟩ := hrebuilt.exists_told (hdecodes.isFresh hg)
  have hlinks := (hrebuilt.mirrors.links_perm ht).map Prod.snd
  have hroot : (d.links.map fun link => ((.root : Level), link)).map Prod.snd = d.links := by
    rw [List.map_map]
    exact List.map_id _
  rw [List.map_append, List.map_append, Document.map_snd_listed, Document.map_snd_listed,
    hroot] at hlinks
  have htells : List.Forall₂ (fun link fate => EdgeFate.TellsOf link fate)
      (l.harvest.links.map Prod.snd) told :=
    List.forall₂_map_left_iff.mpr (htold.imp fun _ _ h => h.1)
  exact (EdgeFate.Accounts.of_forall₂ htells).perm hlinks hfates

/-- A node of a canvas is in the graph or listed as dropped exactly if it is accounted for,
which is decided by the nodes around it and by what loops become; and the links that are
accounted for are those whose fate the conversion shows, each by one edge or finding. -/
theorem ofJson_carriedBlocks {exported : Json} {canvas : Coze.Canvas} {c : Conversion}
    (hg : Registry.Derived .coze g) (hread : Coze.Canvas.read exported = .ok canvas)
    (hids : ((Coze.NodeEntry.families canvas.nodes).map Coze.NodeEntry.id).Nodup)
    (hc : ofJson g exported = .ok c) :
    (∀ e ∈ Coze.NodeEntry.families canvas.nodes,
      (e.id ∈ c.graph.walk.map Node.id ∨ e.id ∈ c.report.droppedBlocks) ↔
        e ∈ canvas.reached g) ∧
      EdgeFate.Accounts (canvas.reachedLinks g) c.edgeFates := by
  have hbuiltIns := hg.usesBuiltIns
  have hcoze := hg.platform_eq
  obtain ⟨d, hparse, hconverted⟩ := exists_parse_of_ofJson hc
  rw [hcoze] at hparse
  obtain ⟨other, hother, rfl⟩ :=
    Coze.exists_canvas_of_parse (Platform.reshape_of_parseDocument hparse)
  obtain rfl := Except.ok.inj (hother.symm.trans hread)
  have hdistinct := Coze.Canvas.distinctIds hids
  obtain ⟨resolver, t, f, l, -, ht, hdecodes, hlifted, hrebuilt, rfl⟩ :=
    exists_rebuilt_of_ok hbuiltIns hdistinct hconverted
  have hmembers := hdistinct.idsApart hbuiltIns t ht
  refine ⟨fun e he => ?_, ?_⟩
  · have hsame : (other.reached g).map (Record.id ∘ Coze.NodeEntry.toRecord) =
        (other.reached g).map Coze.NodeEntry.id :=
      List.map_congr_left fun e _ => Coze.id_toRecord e
    have hrecords := (Coze.Canvas.records_perm hcoze hbuiltIns ht hdistinct).map Record.id
    rw [hrebuilt.mem_ids_iff hbuiltIns hdecodes hlifted ht hmembers
      (Coze.Canvas.isPseudoTag_eq_false hcoze), hrecords.mem_iff, List.map_map, hsame]
    refine ⟨fun hin => ?_, List.mem_map_of_mem⟩
    obtain ⟨reached, hreached, hid⟩ := List.mem_map.mp hin
    obtain rfl := List.inj_on_of_nodup_map hids (Coze.Canvas.reached_subset hreached) he hid
    exact hreached
  · exact (hrebuilt.accounts hbuiltIns hdecodes ht).perm
      (Coze.Canvas.links_perm hcoze hbuiltIns ht hdistinct) (List.Perm.refl _)

/-- A loop in a loop, next to a code node that holds a block. -/
def loopInLoop : Json :=
  .obj [("nodes", .arr
    [.obj [("id", .str "outer"), ("type", .str "21"),
      ("blocks", .arr
        [.obj [("id", .str "inner"), ("type", .str "21"),
          ("blocks", .arr [.obj [("id", .str "step"), ("type", .str "5")]])],
         .obj [("id", .str "code"), ("type", .str "5"),
          ("blocks", .arr [.obj [("id", .str "stray"), ("type", .str "5")]])]]),
      ("edges", .arr
        [.obj [("source_node_id", .str "inner"), ("target_node_id", .str "code")]])]])]

theorem ofJson_carriedBlocks_loopInLoop :
    Registry.Derived .coze (.withDefaults .coze) ∧ ∃ canvas c,
      Coze.Canvas.read loopInLoop = .ok canvas ∧
      ((Coze.NodeEntry.families canvas.nodes).map Coze.NodeEntry.id).Nodup ∧
      ofJson (.withDefaults .coze) loopInLoop = .ok c ∧
      (∀ e ∈ Coze.NodeEntry.families canvas.nodes,
        (e.id ∈ c.graph.walk.map Node.id ∨ e.id ∈ c.report.droppedBlocks) ↔
          e ∈ canvas.reached (.withDefaults .coze)) ∧
      EdgeFate.Accounts (canvas.reachedLinks (.withDefaults .coze)) c.edgeFates := by
  obtain ⟨canvas, hread, hids⟩ := exists_ok_of_any (x := Coze.Canvas.read loopInLoop)
    (q := fun canvas =>
      decide ((Coze.NodeEntry.families canvas.nodes).map Coze.NodeEntry.id).Nodup)
    (by decide +kernel)
  obtain ⟨c, hc, -⟩ := exists_ok_of_any (x := ofJson (.withDefaults .coze) loopInLoop)
    (q := fun c => c.report.isClean) (by decide +kernel)
  have hids := of_decide_eq_true hids
  exact ⟨.defaults, canvas, c, hread, hids, hc, ofJson_carriedBlocks .defaults hread hids hc⟩

/-- A code node that holds a block. -/
def strayBlock : Json :=
  .obj [("nodes", .arr
    [.obj [("id", .str "a"), ("type", .str "5"),
      ("blocks", .arr [.obj [("id", .str "x"), ("type", .str "5")]]),
      ("edges", .arr [])]]),
   ("edges", .arr [])]

theorem strayBlock_lost :
    Registry.Derived .coze (.withDefaults .coze) ∧ ∃ canvas c,
      Coze.Canvas.read strayBlock = .ok canvas ∧
      ((Coze.NodeEntry.families canvas.nodes).map Coze.NodeEntry.id).Nodup ∧
      ofJson (.withDefaults .coze) strayBlock = .ok c ∧
      ∃ e ∈ Coze.NodeEntry.families canvas.nodes,
        e.id ∉ c.graph.walk.map Node.id ∧ e.id ∉ c.report.droppedBlocks ∧
          c.report.isClean = true := by
  obtain ⟨canvas, hread, hfound⟩ := exists_ok_of_any (x := Coze.Canvas.read strayBlock)
    (q := fun canvas => (Coze.NodeEntry.families canvas.nodes).map Coze.NodeEntry.id == ["a", "x"])
    (by decide +kernel)
  obtain ⟨c, hc, hresult⟩ := exists_ok_of_any (x := ofJson (.withDefaults .coze) strayBlock)
    (q := fun c => c.report.isClean && c.graph.walk.map Node.id == ["a"] &&
      c.report.droppedBlocks == []) (by decide +kernel)
  have hids := eq_of_beq hfound
  simp only [Bool.and_eq_true, beq_iff_eq] at hresult
  obtain ⟨⟨hclean, hnodes⟩, hdropped⟩ := hresult
  have hblock : "x" ∈ (Coze.NodeEntry.families canvas.nodes).map Coze.NodeEntry.id := by
    rw [hids]
    decide
  obtain ⟨e, he, hid⟩ := List.mem_map.mp hblock
  refine ⟨.defaults, canvas, c, hread, by rw [hids]; decide, hc, e, he, ?_, ?_, hclean⟩
  · rw [hnodes, hid]
    decide
  · rw [hdropped]
    exact List.not_mem_nil

end Conversion

end WorkflowGraph
