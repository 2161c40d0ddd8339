/-
# What pointers are captured as

A decoder captures the pointers of a record with the resolver of the whole document, which
is complete before the first record is decoded. So what a pointer is captured as depends
on the document and not on where the record stands: a loop-start node means its loop, and
a declared output of a loop has the name that all iteration nodes give their output.
-/

import Mathlib.Data.List.Induction
import WorkflowGraph.Proofs.DepthBound
import WorkflowGraph.Proofs.ResolverEntries
import WorkflowGraph.Proofs.Shells
import WorkflowGraph.Proofs.SurveyedLoops

namespace WorkflowGraph

namespace Resolver

/-- The node that an entry lets an id stand for. -/
def Entry.nodeFor? (id : String) : Entry → Option String
  | .aliased standIn node => if standIn = id then some node else none
  | .renamed .. => none

theorem mem_filterMap_nodeFor?_iff {entries : List Entry} {id node : String} :
    node ∈ entries.filterMap (Entry.nodeFor? id) ↔ .aliased id node ∈ entries := by
  rw [List.mem_filterMap]
  refine ⟨?_, fun hmem => ⟨_, hmem, if_pos rfl⟩⟩
  rintro ⟨e, hmem, hnode⟩
  cases e with
  | renamed => cases hnode
  | aliased standIn other =>
      obtain ⟨rfl, hsame⟩ := Option.ite_none_right_eq_some.mp hnode
      obtain rfl := Option.some.inj hsame
      exact hmem

/-- Of the entries for an id the last one counts. -/
theorem nodeId_ofEntries_eq (entries : List Entry) (id : String) :
    (ofEntries entries).nodeId id =
      (entries.filterMap (Entry.nodeFor? id)).getLast?.getD id := by
  induction entries using List.reverseRecOn with
  | nil => rfl
  | append_singleton entries e ih =>
      rw [ofEntries_concat, List.filterMap_append]
      cases e with
      | renamed node declared effective =>
          have hsame : ((ofEntries entries).add (.renamed node declared effective)).nodeId id =
              (ofEntries entries).nodeId id := rfl
          simp [hsame, ih, Entry.nodeFor?]
      | aliased standIn node =>
          by_cases hid : standIn = id
          · simp [add, nodeId_aliasNode, Entry.nodeFor?, hid]
          · simp [add, nodeId_aliasNode, Entry.nodeFor?, hid, ih]

/-- The node that an id stands for is one that an entry gives, or the id itself if no entry
is about it. -/
theorem nodeId_ofEntries (entries : List Entry) (id : String) :
    .aliased id ((ofEntries entries).nodeId id) ∈ entries ∨
      (∀ node, .aliased id node ∉ entries) ∧ (ofEntries entries).nodeId id = id := by
  rw [nodeId_ofEntries_eq]
  cases hlast : (entries.filterMap (Entry.nodeFor? id)).getLast? with
  | some node =>
      exact Or.inl (mem_filterMap_nodeFor?_iff.mp (List.mem_of_getLast? hlast))
  | none =>
      refine Or.inr ⟨fun node hmem => ?_, rfl⟩
      have hfound := mem_filterMap_nodeFor?_iff.mpr hmem
      rw [List.getLast?_eq_none_iff.mp hlast] at hfound
      cases hfound

/-- The name of an output is one that an entry gives, or its own if no entry is about it. -/
theorem outputName_ofEntries (entries : List Entry) (node name : String) :
    .renamed node name ((ofEntries entries).outputName node name) ∈ entries ∨
      (∀ effective, .renamed node name effective ∉ entries) ∧
        (ofEntries entries).outputName node name = name := by
  induction entries using List.reverseRecOn with
  | nil => exact Or.inr ⟨fun _ => List.not_mem_nil, rfl⟩
  | append_singleton entries e ih =>
      rw [ofEntries_concat]
      cases e with
      | aliased standIn other =>
          have hsame : ((ofEntries entries).add (.aliased standIn other)).outputName node name =
              (ofEntries entries).outputName node name := rfl
          simpa [hsame] using ih
      | renamed other declared effective =>
          by_cases hhere : other = node ∧ declared = name
          · simp [add, outputName_renameOutput, hhere]
          · have hother : ∀ x, Entry.renamed node name x ≠ .renamed other declared effective := by
              intro x heq
              obtain ⟨rfl, rfl, -⟩ := Entry.renamed.inj heq
              exact hhere ⟨rfl, rfl⟩
            simpa [add, outputName_renameOutput, hhere, hother] using ih

end Resolver

namespace Document

/-- An id is that of a loop-start node in the body of a loop. -/
def StartOf (g : Registry) (d : Document) (id owner : String) : Prop :=
  ∃ r, d.ReachesLoop g r ∧ r.id = owner ∧ d.marksStart g r id = true

/-- A loop declares an output. -/
def Declares (g : Registry) (d : Document) (node output : String) : Prop :=
  ∃ r, d.ReachesLoop g r ∧ r.id = node ∧ ∃ o ∈ r.outputs, o.name = output

/-- What a pointer means in a document. A loop-start node stands for its loop, and every
other id for itself; a declared output of a loop has the name of the output of iteration
nodes, and every other output its own. -/
structure Means (g : Registry) (d : Document) (p : Pointer) (r : Reference) : Prop where
  owner : ∀ owner, d.StartOf g p.node owner → r.node = owner
  node : (∀ owner, ¬ d.StartOf g p.node owner) → r.node = p.node
  declared : d.Declares g r.node p.output → r.output = iterationOutput
  output : ¬ d.Declares g r.node p.output → r.output = p.output

variable {g : Registry} {d : Document}

theorem IdsOnOneLevel.owner_unique (hids : d.IdsOnOneLevel g) {id owner other : String}
    (howner : d.StartOf g id owner) (hother : d.StartOf g id other) : owner = other := by
  obtain ⟨r, ⟨_, _, hsurveys, hr, hloop⟩, rfl, hmarks⟩ := howner
  obtain ⟨r', ⟨_, _, hsurveys', hr', hloop'⟩, rfl, hmarks'⟩ := hother
  obtain ⟨body, hbody, x, hx, -, rfl⟩ := marksStart_iff.mp hmarks
  obtain ⟨body', hbody', x', hx', -, hid⟩ := marksStart_iff.mp hmarks'
  have hsame := hids _ _ (hsurveys'.body hr' hloop' hbody') _ _ (hsurveys.body hr hloop hbody)
    x' hx' x hx hid
  exact Level.body.inj hsame

theorem StartsOwn.calls_aliased_iff (hstarts : d.StartsOwn g) {id node : String} :
    d.Calls g (.aliased id node) ↔ d.StartOf g id node := by
  constructor
  · intro hcalls
    cases hcalls with
    | start hreached hmarks => exact ⟨_, hreached, rfl, hmarks⟩
    | named hreached hid hsome =>
        exact ⟨_, hreached, rfl, (hstarts _ hreached _ hid).resolve_left hsome⟩
  · rintro ⟨r, hreached, rfl, hmarks⟩
    exact .start hreached hmarks

theorem calls_renamed_iff {node declared effective : String} :
    d.Calls g (.renamed node declared effective) ↔
      d.Declares g node declared ∧ declared ≠ iterationOutput ∧ effective = iterationOutput := by
  constructor
  · intro hcalls
    cases hcalls with
    | output hreached ho hname => exact ⟨⟨_, hreached, rfl, _, ho, rfl⟩, hname, rfl⟩
  · rintro ⟨⟨r, hreached, rfl, o, ho, rfl⟩, hname, rfl⟩
    exact .output hreached ho hname

end Document

namespace Survey

open Document

variable {g : Registry} {d : Document} {resolver : Resolver}

/-- An id stands for a node that the document calls for, or for itself if it calls for
none. -/
theorem nodeId_cases (hresolver : resolver? g d = some resolver) (id : String) :
    d.Calls g (.aliased id (resolver.nodeId id)) ∨
      (∀ node, ¬ d.Calls g (.aliased id node)) ∧ resolver.nodeId id = id := by
  obtain ⟨entries, hentries, rfl⟩ := exists_entries hresolver
  simpa only [hentries] using Resolver.nodeId_ofEntries entries id

/-- The output that a loop of some level declares has the name of the output of iteration
nodes, and every other output its own. -/
theorem outputName_cases (hresolver : resolver? g d = some resolver) (node name : String) :
    (d.Declares g node name → resolver.outputName node name = iterationOutput) ∧
      (¬ d.Declares g node name → resolver.outputName node name = name) := by
  obtain ⟨entries, hentries, rfl⟩ := exists_entries hresolver
  have hname := Resolver.outputName_ofEntries entries node name
  simp only [hentries, calls_renamed_iff] at hname
  refine ⟨fun hdeclared => ?_, fun hnot => ?_⟩
  · rcases hname with ⟨-, -, hfixed⟩ | ⟨hnone, hself⟩
    · exact hfixed
    · by_cases hfixed : name = iterationOutput
      · exact hself.trans hfixed
      · exact absurd ⟨hdeclared, hfixed, rfl⟩ (hnone _)
  · rcases hname with ⟨hdeclared, -⟩ | ⟨-, hself⟩
    · exact absurd hdeclared hnot
    · exact hself

/-- The resolver of a document resolves a pointer to what it means in the document. -/
theorem means_resolve (hresolver : resolver? g d = some resolver) (hids : d.IdsOnOneLevel g)
    (hstarts : d.StartsOwn g) (p : Pointer) (type : VarType) :
    d.Means g p (resolver.resolve p.node p.output type) := by
  have hnode := nodeId_cases hresolver p.node
  have hname := outputName_cases hresolver (resolver.nodeId p.node) p.output
  simp only [hstarts.calls_aliased_iff] at hnode
  refine ⟨fun owner howner => ?_, fun hnone => ?_, hname.1, hname.2⟩
  · rcases hnode with hfound | ⟨hnone, -⟩
    · exact hids.owner_unique hfound howner
    · exact absurd howner (hnone owner)
  · rcases hnode with hfound | ⟨-, hself⟩
    · exact absurd hfound (hnone _)
    · exact hself

end Survey

theorem exists_of_forall₂_of_mem {α β : Type} {rel : α → β → Prop} {as : List α} {bs : List β}
    (hrel : List.Forall₂ rel as bs) {a : α} (ha : a ∈ as) : ∃ b ∈ bs, rel a b := by
  induction hrel with
  | nil => cases ha
  | cons hhead _ ih =>
      rcases List.mem_cons.mp ha with rfl | hlater
      · exact ⟨_, List.mem_cons_self, hhead⟩
      · obtain ⟨b, hb, hmatch⟩ := ih hlater
        exact ⟨b, List.mem_cons_of_mem _ hb, hmatch⟩

section Relation

variable (means : Pointer → Reference → Prop)

/-- An input captures the value that its record declares: a reference for a pointer, and
none for a constant. -/
def Input.Captures (i : RecordInput) (j : Input) : Prop :=
  j.name = i.name ∧ Option.Rel means i.pointer? j.reference?

/-- Settings capture the pointers in the parameters of a record, each in its own place. -/
def Config.Captures (r : Record) : Config → Prop
  | .condition cases => ∃ ps, Params.read Params.condition r = .ok ps ∧
      List.Forall₂ (fun p c => List.Forall₂ (fun o k => Option.Rel means o.left k.left)
        p.conditions c.conditions) ps cases
  | .classifier c => ∃ p, Params.read Params.classifier r = .ok p ∧
      Option.Rel means p.query c.query
  | .iteration loop => ∃ p, Params.read Params.iteration r = .ok p ∧
      Option.Rel means p.iterator loop.iterator ∧ Option.Rel means p.output loop.output
  | _ => True

/-- An input is a constant, or its producer is not among some ids. -/
def Input.avoids (removed : List String) (i : Input) : Bool :=
  match i.reference? with
  | some ref => !removed.contains ref.node
  | none => true

/-- A node captures the pointers of its record, each in its own place. An end node is without
the inputs from removed producers, and every other node has all inputs. -/
structure Node.Captures (removed : List String) (r : Record) (n : Node) : Prop where
  inputs : ∃ is, List.Forall₂ (Input.Captures means) r.inputs is ∧
    n.inputs = if n.kind = .finish then is.filter (Input.avoids removed) else is
  config : n.config.Captures means r

end Relation

namespace Decoder

section Captures

variable {means : Pointer → Reference → Prop} {ctx : DecodeContext}
  (hmeans : ∀ p type, means p (ctx.capture p type))

include hmeans

theorem rel_map_capture (p : Option Pointer) (type : VarType) :
    Option.Rel means p (p.map fun q => ctx.capture q type) := by
  cases p with
  | none => exact .none
  | some q => exact .some (hmeans q type)

theorem forall₂_inputs (is : List RecordInput) :
    List.Forall₂ (Input.Captures means) is (is.map ctx.input) := by
  rw [List.forall₂_map_right_iff, List.forall₂_same]
  intro i _
  refine ⟨by cases hvalue : i.value <;> simp [DecodeContext.input, hvalue, Input.ofReference,
    Input.ofLiteral], ?_⟩
  rw [DecodeContext.reference?_input]
  exact rel_map_capture hmeans _ _

/-- A branch captures the left sides of its comparisons. -/
theorem forall₂_conditions (index : Nat) (p : Params.Case) :
    List.Forall₂ (fun o k => Option.Rel means o.left k.left) p.conditions
      (branchCase ctx index p).conditions := by
  rw [branchCase, List.forall₂_map_right_iff, List.forall₂_same]
  exact fun o _ => rel_map_capture hmeans o.left .any

/-- A node that is no end node captures what its settings and its inputs capture. -/
theorem captures_node {r : Record} {config : Config} (hkind : config.kind ≠ .finish)
    (hconfig : config.Captures means r) :
    (ctx.node r config).Captures means ctx.removed r where
  inputs := ⟨_, forall₂_inputs hmeans r.inputs, (if_neg hkind).symm⟩
  config := hconfig

omit hmeans in
theorem captures_withDefaultOutput {name : String} {removed : List String} {r : Record}
    {n : Node} (hn : n.Captures means removed r) :
    (withDefaultOutput name n).Captures means removed r := by
  unfold withDefaultOutput
  split
  · exact ⟨hn.inputs, hn.config⟩
  · exact hn

omit hmeans in
/-- A decoder that reads the parameters of a record first succeeds if they can be read. -/
theorem exists_read_of_ok {α : Type} {reader : Json.Reader α} {r : Record}
    {build : α → Node} {n : Node}
    (hn : ((Params.read reader r).bind fun a => .ok (build a)) = .ok n) :
    ∃ a, Params.read reader r = .ok a ∧ build a = n := by
  cases hread : Params.read reader r with
  | error e =>
      rw [hread] at hn
      cases hn
  | ok a =>
      rw [hread] at hn
      exact ⟨a, rfl, Except.ok.inj hn⟩

/-- Every decoder of the library captures the pointers of a record. -/
theorem captures_builtIn (kind : NodeKind) {r : Record} {n : Node}
    (hn : (builtIn kind).decode ctx r = .ok n) : n.Captures means ctx.removed r := by
  cases kind with
  | start =>
      obtain rfl := Except.ok.inj hn
      exact captures_node hmeans nofun trivial
  | finish =>
      obtain ⟨answer, -, rfl⟩ := exists_read_of_ok hn
      exact ⟨⟨_, forall₂_inputs hmeans r.inputs, (if_pos rfl).symm⟩, trivial⟩
  | llm =>
      obtain ⟨config, -, rfl⟩ := exists_read_of_ok hn
      exact captures_withDefaultOutput (captures_node hmeans nofun trivial)
  | code =>
      obtain ⟨config, -, rfl⟩ := exists_read_of_ok hn
      exact captures_node hmeans nofun trivial
  | condition =>
      obtain ⟨ps, hread, rfl⟩ := exists_read_of_ok hn
      refine captures_node hmeans nofun ⟨ps, hread, List.forall₂_iff_get.mpr ⟨by simp, ?_⟩⟩
      intro i hi hi'
      simpa using forall₂_conditions hmeans i ps[i]
  | classifier =>
      obtain ⟨p, hread, rfl⟩ := exists_read_of_ok hn
      exact captures_withDefaultOutput
        (captures_node hmeans nofun ⟨p, hread, rel_map_capture hmeans _ _⟩)
  | iteration =>
      obtain ⟨p, hread, rfl⟩ := exists_read_of_ok hn
      exact ⟨⟨_, forall₂_inputs hmeans r.inputs, (if_neg nofun).symm⟩,
        p, hread, rel_map_capture hmeans _ _, rel_map_capture hmeans _ _⟩

end Captures

end Decoder

namespace Registry

/-- What a registry of built-in decoders decodes is decoded by one of them. -/
theorem exists_builtIn_of_decode {g : Registry} (hg : g.UsesBuiltIns) {ctx : DecodeContext}
    {r : Record} {n : Node} (hn : g.decode ctx r = .ok n) :
    ∃ kind, (Decoder.builtIn kind).decode ctx r = .ok n := by
  unfold decode decoder at hn
  cases hd : Table.get? r.tag g.decoders with
  | none =>
      rw [hd] at hn
      cases hn
  | some d =>
      have hdecode : d.decode ctx r = .ok n := by
        rw [hd] at hn
        exact hn
      rw [hg r.tag d hd] at hdecode
      exact ⟨d.kind, hdecode⟩

/-- A registry of built-in decoders captures the pointers of the records that it decodes. -/
theorem captures_decode {g : Registry} (hg : g.UsesBuiltIns) {means : Pointer → Reference → Prop}
    {ctx : DecodeContext} (hmeans : ∀ p type, means p (ctx.capture p type)) {r : Record}
    {n : Node} (hn : g.decode ctx r = .ok n) : n.Captures means ctx.removed r := by
  obtain ⟨kind, hdecode⟩ := exists_builtIn_of_decode hg hn
  exact Decoder.captures_builtIn hmeans kind hdecode

end Registry

namespace Lift

variable {g : Registry} {resolver : Resolver} {level : Level} {r : Record} {n : Node}

theorem decode_of_decodeRecord (hg : g.UsesBuiltIns) (hdecodes : (g.face? r).isSome = true)
    {removed : List String} (hout : (decodeRecord g resolver level removed r).1 = some n) :
    g.decode (context g resolver removed) r = .ok n := by
  obtain ⟨face, hface⟩ := Option.isSome_iff_exists.mp hdecodes
  obtain ⟨m, hm, -⟩ :=
    (Registry.decode_of_face?_eq_some hg hface).2.2 (context g resolver removed)
  rw [decodeRecord_of_ok hm] at hout
  obtain rfl := Option.some.inj hout
  exact hm

/-- A record that can be decoded becomes the node to which it is decoded. -/
theorem Becomes.exists_decode (hg : g.UsesBuiltIns) (hn : Becomes g resolver level r n)
    (hdecodes : (g.face? r).isSome = true) :
    ∃ removed, g.decode (context g resolver removed) r = .ok n := by
  obtain ⟨-, removed, hout⟩ := hn
  exact ⟨removed, decode_of_decodeRecord hg hdecodes hout⟩

/-- The settings of a decoded record are of the kind that its tag announces. -/
theorem Becomes.kind?_eq (hg : g.UsesBuiltIns) (hn : Becomes g resolver level r n)
    (hdecodes : (g.face? r).isSome = true) : g.kind? r.tag = some n.config.kind := by
  obtain ⟨removed, hdecode⟩ := hn.exists_decode hg hdecodes
  obtain ⟨face, hface⟩ := Option.isSome_iff_exists.mp hdecodes
  obtain ⟨-, hkind, hall⟩ := Registry.decode_of_face?_eq_some hg hface
  obtain ⟨m, hm, rfl, hfresh⟩ := hall (context g resolver removed)
  obtain rfl := Except.ok.inj (hm.symm.trans hdecode)
  rw [hkind, hfresh.config]
  rfl

end Lift

end WorkflowGraph
