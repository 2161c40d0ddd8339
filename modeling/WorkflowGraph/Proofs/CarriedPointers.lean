/-
# The pointers of a document in its graph

On its way into the graph a decoded node loses the references to absent nodes, and an
iteration node is given a body. What is left still comes from the record of the node, each
reference from the pointer in its own place. So what holds of every pointer and the
reference that it is captured as holds throughout the graph.
-/

import Mathlib.Data.List.Forall2
import WorkflowGraph.Proofs.BlockLists
import WorkflowGraph.Proofs.Captures
import WorkflowGraph.Proofs.References

namespace WorkflowGraph

/-- A reference is what a resolver makes of a pointer, with some type. -/
def Resolver.Resolves (resolver : Resolver) (q : Pointer) (ref : Reference) : Prop :=
  ∃ type, ref = resolver.resolve q.node q.output type

section Relation

variable (means : Pointer → Reference → Prop)

/-- A slot is empty, or holds a reference for the pointer that its record has there. -/
def SlotCarries (declared : Option Pointer) (slot : Option Reference) : Prop :=
  ∀ ref ∈ slot, ∃ q ∈ declared, means q ref

/-- Settings carry the pointers in the parameters of a record, or nothing in their place. -/
def Config.Carries (r : Record) : Config → Prop
  | .condition cases => ∃ ps, Params.read Params.condition r = .ok ps ∧
      List.Forall₂ (fun p c => List.Forall₂ (fun o k => SlotCarries means o.left k.left)
        p.conditions c.conditions) ps cases
  | .classifier c => ∃ p, Params.read Params.classifier r = .ok p ∧
      SlotCarries means p.query c.query
  | .iteration loop => ∃ p, Params.read Params.iteration r = .ok p ∧
      SlotCarries means p.iterator loop.iterator ∧ SlotCarries means p.output loop.output
  | _ => True

/-- A node carries the pointers of its record: its inputs are declared inputs in their
order, and its settings hold no reference of another origin. -/
structure Node.Carries (r : Record) (n : Node) : Prop where
  inputs : ∃ kept : List RecordInput, kept.Sublist r.inputs ∧
    List.Forall₂ (Input.Captures means) kept n.inputs
  config : n.config.Carries means r

end Relation

section Carrying

variable {means other : Pointer → Reference → Prop} {r : Record}

theorem slotCarries_of_rel {declared : Option Pointer} {slot : Option Reference}
    (hrel : Option.Rel means declared slot) : SlotCarries means declared slot := by
  intro ref href
  cases hrel with
  | none => cases href
  | some hmeans =>
      obtain rfl := Option.some.inj href
      exact ⟨_, rfl, hmeans⟩

theorem SlotCarries.mono (himp : ∀ q ref, means q ref → other q ref) {declared : Option Pointer}
    {slot : Option Reference} (hslot : SlotCarries means declared slot) :
    SlotCarries other declared slot := by
  intro ref href
  obtain ⟨q, hq, hmeans⟩ := hslot ref href
  exact ⟨q, hq, himp q ref hmeans⟩

theorem SlotCarries.kept {declared : Option Pointer} {slot : Option Reference}
    (hslot : SlotCarries means declared slot) (present : List String) :
    SlotCarries means declared (Dangling.kept present slot) := by
  intro ref href
  exact hslot ref (Option.filter_eq_some_iff.mp href).1

theorem Input.Captures.mono (himp : ∀ q ref, means q ref → other q ref) {i : RecordInput}
    {j : Input} (hinput : Input.Captures means i j) : Input.Captures other i j := by
  obtain ⟨hname, hrel⟩ := hinput
  refine ⟨hname, ?_⟩
  generalize i.pointer? = declared at hrel ⊢
  generalize j.reference? = slot at hrel ⊢
  cases hrel with
  | none => exact .none
  | some hmeans => exact .some (himp _ _ hmeans)

theorem Config.Carries.mono (himp : ∀ q ref, means q ref → other q ref) {config : Config}
    (hconfig : config.Carries means r) : config.Carries other r := by
  cases config with
  | condition cases =>
      obtain ⟨ps, hread, hcases⟩ := hconfig
      exact ⟨ps, hread, hcases.imp fun _ _ hcase => hcase.imp fun _ _ hslot => hslot.mono himp⟩
  | classifier c =>
      obtain ⟨p, hread, hquery⟩ := hconfig
      exact ⟨p, hread, hquery.mono himp⟩
  | iteration loop =>
      obtain ⟨p, hread, hiterator, houtput⟩ := hconfig
      exact ⟨p, hread, hiterator.mono himp, houtput.mono himp⟩
  | _ => trivial

/-- A node carries pointers as whatever follows from what they are carried as. -/
theorem Node.Carries.mono (himp : ∀ q ref, means q ref → other q ref) {n : Node}
    (hn : n.Carries means r) : n.Carries other r := by
  obtain ⟨kept, hkept, hcaptures⟩ := hn.inputs
  exact ⟨⟨kept, hkept, hcaptures.imp fun _ _ hinput => hinput.mono himp⟩,
    hn.config.mono himp⟩

theorem Config.Captures.carries {config : Config} (hconfig : config.Captures means r) :
    config.Carries means r := by
  cases config with
  | condition cases =>
      obtain ⟨ps, hread, hcases⟩ := hconfig
      exact ⟨ps, hread,
        hcases.imp fun _ _ hcase => hcase.imp fun _ _ hrel => slotCarries_of_rel hrel⟩
  | classifier c =>
      obtain ⟨p, hread, hquery⟩ := hconfig
      exact ⟨p, hread, slotCarries_of_rel hquery⟩
  | iteration loop =>
      obtain ⟨p, hread, hiterator, houtput⟩ := hconfig
      exact ⟨p, hread, slotCarries_of_rel hiterator, slotCarries_of_rel houtput⟩
  | _ => trivial

/-- A sublist of what was captured was captured from a sublist. -/
theorem exists_sublist_of_forall₂ {α β : Type} {rel : α → β → Prop} {as : List α}
    {bs cs : List β} (hrel : List.Forall₂ rel as bs) (hsub : cs.Sublist bs) :
    ∃ kept : List α, kept.Sublist as ∧ List.Forall₂ rel kept cs := by
  induction hsub generalizing as with
  | slnil =>
      cases hrel
      exact ⟨[], .slnil, .nil⟩
  | cons b _ ih =>
      cases hrel with
      | cons _ hrest =>
          obtain ⟨kept, hkept, hall⟩ := ih hrest
          exact ⟨kept, hkept.cons _, hall⟩
  | cons_cons b _ ih =>
      cases hrel with
      | @cons a _ _ _ hhead hrest =>
          obtain ⟨kept, hkept, hall⟩ := ih hrest
          exact ⟨a :: kept, hkept.cons_cons _, .cons hhead hall⟩

theorem Node.Captures.carries {removed : List String} {n : Node}
    (hn : n.Captures means removed r) : n.Carries means r := by
  obtain ⟨is, hcaptures, hinputs⟩ := hn.inputs
  have hsub : n.inputs.Sublist is := by
    rw [hinputs]
    split
    · exact List.filter_sublist
    · exact List.Sublist.refl _
  exact ⟨exists_sublist_of_forall₂ hcaptures hsub, hn.config.carries⟩

theorem Config.Carries.clean {config : Config} (hconfig : config.Carries means r)
    (present : List String) : (Dangling.cleanConfig present config).Carries means r := by
  cases config with
  | condition cases =>
      obtain ⟨ps, hread, hcases⟩ := hconfig
      refine ⟨ps, hread, ?_⟩
      rw [List.forall₂_map_right_iff]
      refine hcases.imp fun p c hcase => ?_
      rw [Dangling.cleanCase, List.forall₂_map_right_iff]
      exact hcase.imp fun _ _ hslot => hslot.kept present
  | classifier c =>
      obtain ⟨p, hread, hquery⟩ := hconfig
      exact ⟨p, hread, hquery.kept present⟩
  | iteration loop =>
      obtain ⟨p, hread, hiterator, houtput⟩ := hconfig
      exact ⟨p, hread, hiterator.kept present, houtput.kept present⟩
  | _ => trivial

/-- A node without its dangling references carries the pointers of the others. -/
theorem Node.Carries.clean {n : Node} (hn : n.Carries means r) (present : List String) :
    (Dangling.cleanNode present n).Carries means r := by
  obtain ⟨kept, hkept, hcaptures⟩ := hn.inputs
  obtain ⟨fewer, hfewer, hrest⟩ := exists_sublist_of_forall₂ hcaptures List.filter_sublist
  exact ⟨⟨fewer, hfewer.trans hkept, hrest⟩, hn.config.clean present⟩

theorem Node.Carries.withBody {n : Node} (hn : n.Carries means r) (part : EdgePartition)
    (body : Graph) : (n.withBody part body).Carries means r := by
  obtain ⟨id, kind, title, config, inputs, outputs, presentation⟩ := n
  cases config with
  | iteration loop => exact ⟨hn.inputs, hn.config⟩
  | _ => exact hn

end Carrying

namespace Node

theorem kind_withBody (part : EdgePartition) (n : Node) (body : Graph) :
    (n.withBody part body).kind = n.kind :=
  congrArg Face.kind (withBody_face part n body)

theorem inputs_withBody (part : EdgePartition) (n : Node) (body : Graph) :
    (n.withBody part body).inputs = n.inputs := by
  unfold withBody reattach?
  cases hconfig : n.config <;> rfl

/-- A node of a graph is what becomes of a decoded node: its dangling references are left
out, and it may be given a body. -/
def Finishes (part : EdgePartition) (present : List String) (own n : Node) : Prop :=
  n = Dangling.cleanNode present own ∨
    ∃ body, n = (Dangling.cleanNode present own).withBody part body

namespace Finishes

variable {part : EdgePartition} {present : List String} {own n : Node}

theorem eq_of_withBody {β : Type} {φ : Node → β} (hφ : ∀ n body, φ (n.withBody part body) = φ n)
    (hn : own.Finishes part present n) : φ n = φ (Dangling.cleanNode present own) := by
  rcases hn with rfl | ⟨body, rfl⟩
  · rfl
  · exact hφ _ body

theorem id_eq (hn : own.Finishes part present n) : n.id = own.id :=
  hn.eq_of_withBody (withBody_id part)

theorem kind_eq (hn : own.Finishes part present n) : n.kind = own.kind :=
  hn.eq_of_withBody (kind_withBody part)

theorem inputs_eq (hn : own.Finishes part present n) :
    n.inputs = own.inputs.filter (Dangling.keepsInput present) :=
  hn.eq_of_withBody (inputs_withBody part)

theorem carries {means : Pointer → Reference → Prop} {r : Record}
    (hn : own.Finishes part present n) (hown : own.Carries means r) : n.Carries means r := by
  rcases hn with rfl | ⟨body, rfl⟩
  · exact hown.clean present
  · exact (hown.clean present).withBody part body

end Finishes

end Node

namespace Lift

variable {g : Registry} {resolver : Resolver}

/-- A record that cannot be decoded becomes its placeholder, if anything. -/
theorem Becomes.eq_placeholder (hg : g.UsesBuiltIns) {level : Level} {r : Record} {n : Node}
    (hn : Becomes g resolver level r n) (hface : g.face? r = none) :
    level = .root ∧ n = placeholder g.platform r := by
  obtain ⟨-, removed, hout⟩ := hn
  obtain ⟨e, hfails⟩ := Registry.decode_of_face?_eq_none hg hface
  cases level with
  | root =>
      rw [decodeRecord_root_of_error (hfails _)] at hout
      exact ⟨rfl, (Option.some.inj hout).symm⟩
  | body owner =>
      rw [decodeRecord_body_of_error (hfails _)] at hout
      cases hout

/-- The node of a record carries what the resolver of the run makes of the pointers. -/
theorem Becomes.carries (hg : g.UsesBuiltIns) {level : Level} {r : Record} {n : Node}
    (hn : Becomes g resolver level r n) : n.Carries resolver.Resolves r := by
  cases hface : g.face? r with
  | some face =>
      obtain ⟨removed, hdecode⟩ := hn.exists_decode hg (by rw [hface]; rfl)
      have hmeans : ∀ q type,
          resolver.Resolves q ((context g resolver removed).capture q type) :=
        fun q type => ⟨type, rfl⟩
      exact (Registry.captures_decode hg hmeans hdecode).carries
  | none =>
      obtain ⟨-, rfl⟩ := hn.eq_placeholder hg hface
      exact ⟨⟨[], List.nil_sublist _, .nil⟩, trivial⟩

/-- Every node of a filled nesting is that of a record of the nesting. -/
theorem Decodes.exists_becomes {level : Level} {t : Nested Record} {f : Nested Node}
    (hdecodes : Decodes g resolver level t f) {n : Node} (hn : n ∈ f.members) :
    ∃ place r, t.Lies Record.id level place r ∧ Becomes g resolver place r n := by
  induction hdecodes with
  | nil => cases hn
  | skip _ _ ih =>
      obtain ⟨place, r, hlies, hbecomes⟩ := ih hn
      exact ⟨place, r, Nested.lies_leaf.mpr (Or.inr hlies), hbecomes⟩
  | leaf hhead _ ih =>
      rcases List.mem_cons.mp hn with rfl | hlater
      · exact ⟨_, _, Nested.lies_leaf.mpr (Or.inl ⟨rfl, rfl⟩), hhead⟩
      · obtain ⟨place, r, hlies, hbecomes⟩ := ih hlater
        exact ⟨place, r, Nested.lies_leaf.mpr (Or.inr hlies), hbecomes⟩
  | loop _ hhead _ _ ihInner ihRest =>
      rcases List.mem_cons.mp hn with rfl | hlater
      · exact ⟨_, _, Nested.lies_loop.mpr (Or.inl ⟨rfl, rfl⟩), hhead⟩
      · rcases List.mem_append.mp hlater with hinside | hafter
        · obtain ⟨place, r, hlies, hbecomes⟩ := ihInner hinside
          exact ⟨place, r, Nested.lies_loop.mpr (Or.inr (Or.inl hlies)), hbecomes⟩
        · obtain ⟨place, r, hlies, hbecomes⟩ := ihRest hafter
          exact ⟨place, r, Nested.lies_loop.mpr (Or.inr (Or.inr hlies)), hbecomes⟩

end Lift

namespace Document

variable {g : Registry} {d : Document}

/-- The records that are lifted are records of the document. -/
theorem Unrolls.mem_allRecords {t : Nested Record} (ht : d.Unrolls g d.records t) {place : Level}
    {r : Record} (hlies : t.Lies Record.id .root place r) : r ∈ d.allRecords := by
  obtain ⟨e, he, -, hr⟩ := hlies
  obtain ⟨body, hbody, hrecords⟩ := (ht.lists e he).exists_mem_lists
  exact List.mem_flatMap.mpr ⟨_, hbody, hrecords ▸ hr⟩

end Document

namespace Assembly

open WorkflowGraph.Graph

/-- What holds of nodes with and without a body holds of the nodes of a list that are given
bodies. -/
theorem forall₂_attachBodies {α : Type} {rel attachedRel : α → Node → Prop}
    {part : EdgePartition} (hleft : ∀ a n, rel a n → attachedRel a n)
    (hbody : ∀ a n body, rel a n → attachedRel a (n.withBody part body))
    (inner : Level → LevelTable → Assembled Graph) {as : List α} {ns : List Node}
    (hrel : List.Forall₂ rel as ns) :
    ∀ t, List.Forall₂ attachedRel as (attachBodies part inner ns t).value := by
  induction hrel with
  | nil => exact fun _ => .nil
  | @cons a n _ ns hhead _ ih =>
      intro t
      by_cases hkind : n.kind = .iteration
      · rw [attachBodies_cons_of_iteration inner hkind]
        exact .cons (hbody a n _ hhead) (ih _)
      · rw [attachBodies_cons_of_ne inner hkind]
        exact .cons (hleft a n hhead) (ih _)

/-- A walk of the graph of a nesting meets what becomes of the nodes of the nesting. -/
theorem exists_finishes_of_attached (p : Platform) (part : EdgePartition)
    (present : List String) {f : Nested Node} (hfresh : f.IsFresh) {n : Node}
    (hn : n ∈ walkNodes (attached p part (f.clean present))) :
    ∃ own ∈ f.members, own.Finishes part present n := by
  induction hfresh with
  | nil => cases hn
  | @leaf own rest hown _ ih =>
      rw [Nested.clean, Nested.map,
        walkNodes_attached_leaf _ _ (Dangling.isFresh_cleanNode present hown), List.mem_cons] at hn
      rcases hn with rfl | hlater
      · refine ⟨own, List.mem_cons_self, ?_⟩
        unfold bare
        split
        · exact Or.inr ⟨_, rfl⟩
        · exact Or.inl rfl
      · obtain ⟨own, hmem, hfinishes⟩ := ih hlater
        exact ⟨own, List.mem_cons_of_mem _ hmem, hfinishes⟩
  | @loop own inner rest hown hkind _ _ ihInner ihRest =>
      rw [Nested.clean, Nested.map,
        walkNodes_attached_loop _ _ (Dangling.isFresh_cleanNode present hown) hkind, List.mem_cons,
        List.mem_append] at hn
      rcases hn with rfl | hinside | hlater
      · exact ⟨own, List.mem_cons_self, Or.inr ⟨_, rfl⟩⟩
      · obtain ⟨own, hmem, hfinishes⟩ := ihInner hinside
        exact ⟨own, List.mem_cons_of_mem _ (List.mem_append_left _ hmem), hfinishes⟩
      · obtain ⟨own, hmem, hfinishes⟩ := ihRest hlater
        exact ⟨own, List.mem_cons_of_mem _ (List.mem_append_right _ hmem), hfinishes⟩

end Assembly

namespace Conversion

open Assembly Dangling

variable {g : Registry} {d : Document} {l : Lifted} {t : Nested Record} {f : Nested Node}
  {resolver : Resolver}

/-- What a conversion of a document with distinct ids has built on the way. -/
theorem exists_rebuilt_of_ok (hg : g.UsesBuiltIns) (hids : d.DistinctIds) {c : Conversion}
    (hc : ofDocument g d = .ok c) :
    ∃ resolver t f l, Survey.resolver? g d = some resolver ∧ d.Unrolls g d.records t ∧
      Lift.Decodes g resolver .root t f ∧ Lifted.ofDocument? g d = some l ∧
        Rebuilt g d l t f ∧
          c = ⟨g.platform, (assemble g.platform l).1, (assemble g.platform l).2⟩ := by
  exact exists_rebuilt_of_loopsApart hg hids.loopsApart hc

/-- A node of a rebuilt graph is what becomes of the node of a record that was lifted. -/
theorem Rebuilt.exists_finishes (hg : g.UsesBuiltIns) (hrebuilt : Rebuilt g d l t f)
    (hdecodes : Lift.Decodes g resolver .root t f) {n : Node}
    (hn : n ∈ (assemble g.platform l).1.walk) :
    ∃ place r, t.Lies Record.id .root place r ∧ ∃ own ∈ f.members,
      Lift.Becomes g resolver place r own ∧
        own.Finishes (partition g.platform l) (presentIds l.levels) n := by
  rw [hrebuilt.graph, Graph.walk_eq, Assembly.graph] at hn
  obtain ⟨own, hown, hfinishes⟩ := exists_finishes_of_attached g.platform
    (partition g.platform l) (presentIds l.levels) (hdecodes.isFresh hg) hn
  obtain ⟨place, r, hlies, hbecomes⟩ := hdecodes.exists_becomes hown
  exact ⟨place, r, hlies, own, hown, hbecomes, hfinishes⟩

/-- The nodes of the root of a graph are what becomes of the nodes that were made for it. -/
theorem forall₂_finishes_roots (hmirrors : l.Mirrors g d t f) {made : Record → Node → Prop}
    {rs : List Record} (hmade : List.Forall₂ made rs f.roots) :
    List.Forall₂ (fun r n => ∃ own, made r own ∧
        own.Finishes (partition g.platform l) (presentIds l.levels) n)
      rs (assemble g.platform l).1.nodes := by
  have hstored : (tableOf (f.clean (presentIds l.levels))).nodes .root =
      f.roots.map (cleanNode (presentIds l.levels)) := by
    rw [nodes_tableOf_root, Nested.clean, Nested.roots_map]
  rw [assemble_fst_eq _ hmirrors, ofLevel_eq, hstored]
  have hcleaned : List.Forall₂ (fun r n => ∃ own, made r own ∧
      n = cleanNode (presentIds l.levels) own) rs
        (f.roots.map (cleanNode (presentIds l.levels))) := by
    rw [List.forall₂_map_right_iff]
    exact hmade.imp fun r own hown => ⟨own, hown, rfl⟩
  refine forall₂_attachBodies ?_ ?_ _ hcleaned _
  · rintro r n ⟨own, hown, rfl⟩
    exact ⟨own, hown, Or.inl rfl⟩
  · rintro r n body ⟨own, hown, rfl⟩
    exact ⟨own, hown, Or.inr ⟨body, rfl⟩⟩

/-- The nodes of the root of a graph are what becomes of the nodes of the records of the
root, whatever ids the levels share. -/
theorem forall₂_finishes_root (hg : g.UsesBuiltIns) (hmirrors : l.Mirrors g d t f)
    (ht : d.Unrolls g d.records t) (hdecodes : Lift.Decodes g resolver .root t f) :
    List.Forall₂ (fun r n => ∃ own, Lift.Becomes g resolver .root r own ∧
        own.Finishes (partition g.platform l) (presentIds l.levels) n)
      (g.survivors .root d.records) (assemble g.platform l).1.nodes :=
  forall₂_finishes_roots hmirrors (ht.roots_eq ▸ hdecodes.forall₂_roots hg)

end Conversion

end WorkflowGraph
