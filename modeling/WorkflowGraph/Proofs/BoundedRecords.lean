/-
# Numbers that a record holds

The settings of a node are made of what an export says of it, and the adapters put no
other numbers into them: a temperature is written as a JSON number or left out, and a
constant is taken as it is. Where every value of an export is bounded, so are the
parameters and constants of its records.
-/

import WorkflowGraph.Proofs.BoundedReading

namespace WorkflowGraph

open Json (OptionBounded optionBounded_get? optionBounded_at? optionBounded_tableGet?)
open Json.Reader

/-! ## Nodes of an export -/

/-- Another spelling of the name of a field does not change what the field stores. -/
theorem Json.Reader.Field.Keeps.orNamed {σ : Type} {f : Field σ} {Q : σ → Prop}
    (hf : f.Keeps Q) (key : String) : (f.orNamed key).Keeps Q :=
  hf

namespace Dify

/-- Every value in the data of the node is bounded. -/
def NodeEntry.IsBounded (e : NodeEntry) : Prop :=
  ∀ entry ∈ e.data, entry.2.isBounded = true

theorem yields_entry : Yields NodeEntry.read NodeEntry.IsBounded := by
  refine yields_record nofun ?_
  rw [List.forall_mem_cons, List.forall_mem_cons, List.forall_mem_cons, List.forall_mem_singleton]
  exact ⟨Field.keeps_of_put _ fun _ _ hs => hs,
    .orNamed (by exact Field.keeps_of_put _ fun _ _ hs => hs) _,
    Field.keeps_of_put _ fun _ _ hs => hs,
    Field.keeps_ofReader yields_any.fields fun _ _ hdata _ => hdata⟩

theorem yields_canvas : Yields Canvas.read fun c => ∀ e ∈ c.nodes, e.IsBounded := by
  refine yields_record nofun ?_
  rw [List.forall_mem_cons, List.forall_mem_singleton]
  exact ⟨Field.keeps_ofReader yields_entry.list fun _ _ hnodes _ => hnodes.2,
    Field.keeps_of_put _ fun _ _ hs => hs⟩

theorem isBounded_graphPart {exported : Json} (hbounded : exported.isBounded = true) :
    (graphPart exported).isBounded = true := by
  unfold graphPart
  cases hpart : exported.at? ["workflow", "graph"] with
  | some part => exact optionBounded_at? hbounded _ part hpart
  | none =>
      cases hgraph : exported.get? "graph" with
      | some part => simpa [hgraph] using optionBounded_get? hbounded _ part hgraph
      | none => simpa [hgraph] using hbounded

theorem isBounded_of_mem_exportedNodes {exported : Json} (hbounded : exported.isBounded = true) :
    ∀ e ∈ exportedNodes exported, e.IsBounded := by
  unfold exportedNodes
  cases hread : Canvas.read (graphPart exported) with
  | ok canvas => exact yields_canvas _ canvas (isBounded_graphPart hbounded) hread
  | error _ => nofun

end Dify

namespace Coze

/-- Every value in the data of the node is bounded, and so it is for the nodes below. -/
def NodeEntry.IsBounded (e : NodeEntry) : Prop :=
  ∀ inner ∈ e.family, ∀ entry ∈ inner.data, entry.2.isBounded = true

theorem NodeEntry.isBounded_iff (e : NodeEntry) : e.IsBounded ↔
    (∀ entry ∈ e.data, entry.2.isBounded = true) ∧ ∀ inner ∈ e.held, inner.IsBounded := by
  unfold IsBounded
  rw [family_eq, List.forall_mem_cons, families_eq_flatMap]
  simp only [List.mem_flatMap, forall_exists_index, and_imp]
  exact and_congr_right fun _ => ⟨fun h owner howner inner hinner => h inner owner howner hinner,
    fun h inner owner howner hinner => h owner howner inner hinner⟩

theorem yields_entryWithin (n : Nat) : Yields (NodeEntry.readWithin n) NodeEntry.IsBounded := by
  induction n with
  | zero => nofun
  | succ n ih =>
      refine (yields_record (Q := fun e : NodeEntry =>
        (∀ entry ∈ e.data, entry.2.isBounded = true) ∧ ∀ inner ∈ e.held, inner.IsBounded)
          ⟨List.forall_mem_nil _, List.forall_mem_nil _⟩ ?_).mono fun e he => e.isBounded_iff.mpr he
      iterate 5 rw [List.forall_mem_cons]
      rw [List.forall_mem_singleton]
      refine ⟨Field.keeps_of_put _ fun _ _ hs => hs, Field.keeps_of_put _ fun _ _ hs => hs,
        Field.keeps_of_put _ fun _ _ hs => hs, ?data, ?blocks,
        Field.keeps_of_put _ fun _ _ hs => hs⟩
      case data => exact Field.keeps_ofReader yields_any.fields fun _ _ hdata hs => ⟨hdata, hs.2⟩
      case blocks =>
        refine Field.keeps_ofReader ih.list.option fun blocks e hblocks he => ⟨he.1, ?_⟩
        cases blocks with
        | none => nofun
        | some entries => exact (hblocks entries rfl).2

theorem yields_canvas : Yields Canvas.read fun c => ∀ e ∈ c.nodes, e.IsBounded := by
  refine yields_record nofun ?_
  rw [List.forall_mem_cons, List.forall_mem_singleton]
  have hentry : Yields NodeEntry.read NodeEntry.IsBounded := yields_nested yields_entryWithin
  exact ⟨Field.keeps_ofReader hentry.list fun _ _ hnodes _ => hnodes.2,
    Field.keeps_of_put _ fun _ _ hs => hs⟩

theorem isBounded_of_mem_exportedNodes {exported : Json} (hbounded : exported.isBounded = true) :
    ∀ e ∈ exportedNodes exported, ∀ entry ∈ e.data, entry.2.isBounded = true := by
  unfold exportedNodes
  cases hread : Canvas.read exported with
  | error _ => nofun
  | ok canvas =>
      show ∀ e ∈ NodeEntry.families canvas.nodes, _
      rw [NodeEntry.families_eq_flatMap]
      intro e he
      obtain ⟨owner, howner, hinner⟩ := List.mem_flatMap.mp he
      exact yields_canvas _ canvas hbounded hread owner howner e hinner

end Coze

namespace Bailian

/-- Every value in the settings of the node is bounded, and so is every constant. -/
structure NodeEntry.IsBounded (e : NodeEntry) : Prop where
  config : ∀ entry ∈ e.config, entry.2.isBounded = true
  inputs : ∀ p ∈ e.inputs, p.value.isBounded = true

theorem yields_parameter : Yields Parameter.read fun p => p.value.isBounded = true := by
  refine yields_record Json.isBounded_null ?_
  rw [List.forall_mem_cons, List.forall_mem_cons, List.forall_mem_singleton]
  exact ⟨Field.keeps_of_put _ fun _ _ hs => hs, Field.keeps_of_put _ fun _ _ hs => hs,
    Field.keeps_ofReader yields_any fun _ _ hvalue _ => hvalue⟩

theorem yields_entry : Yields NodeEntry.read NodeEntry.IsBounded := by
  refine yields_record ⟨nofun, nofun⟩ ?_
  iterate 7 rw [List.forall_mem_cons]
  rw [List.forall_mem_singleton]
  refine ⟨?_, ?_, ?_, ?_, ?_, ?config, ?inputs, ?_⟩
  case config => exact Field.keeps_ofReader yields_any.fields fun _ _ hdata hs => ⟨hdata, hs.inputs⟩
  case inputs =>
    exact Field.keeps_ofReader yields_parameter.list fun _ _ hlist hs => ⟨hs.config, hlist.2⟩
  all_goals exact Field.keeps_of_put _ fun _ _ hs => ⟨hs.config, hs.inputs⟩

theorem yields_subflow : Yields Subflow.read fun s => ∀ e ∈ s.nodes, e.IsBounded := by
  refine yields_record nofun ?_
  rw [List.forall_mem_cons, List.forall_mem_singleton]
  exact ⟨Field.keeps_ofReader yields_entry.list fun _ _ hnodes _ => hnodes.2,
    Field.keeps_of_put _ fun _ _ hs => hs⟩

theorem yields_flow : Yields Flow.read fun f => (∀ e ∈ f.nodes, e.IsBounded) ∧
    ∀ s ∈ f.subflows.entries, ∀ e ∈ s.2.nodes, e.IsBounded := by
  refine yields_record ⟨nofun, nofun⟩ ?_
  rw [List.forall_mem_cons, List.forall_mem_cons, List.forall_mem_singleton]
  exact ⟨Field.keeps_ofReader yields_entry.list fun _ _ hnodes hs => ⟨hnodes.2, hs.2⟩,
    Field.keeps_of_put _ fun _ _ hs => hs,
    Field.keeps_ofReader yields_subflow.table fun _ _ hsubflows hs => ⟨hs.1, hsubflows⟩⟩

theorem isBounded_of_mem_exportedNodes {exported : Json} (hbounded : exported.isBounded = true) :
    ∀ e ∈ exportedNodes exported, e.IsBounded := by
  unfold exportedNodes
  cases hread : Flow.read exported with
  | error _ => nofun
  | ok flow =>
      obtain ⟨hnodes, hsubflows⟩ := yields_flow _ flow hbounded hread
      refine List.forall_mem_append.mpr ⟨hnodes, fun e he => ?_⟩
      obtain ⟨s, hs, hinner⟩ := List.mem_flatMap.mp he
      exact hsubflows s hs e hinner

end Bailian

/-! ## Values that the adapters make -/

namespace Json

theorem isBounded_object {fields : List (String × Json)}
    (hfields : ∀ e ∈ fields, e.2.isBounded = true) : (object fields).isBounded = true :=
  (isBounded_obj _).mpr fun e he => hfields e (Fields.mem_of_mem_ofList he)

theorem isBounded_ofOption {α : Type} {write : α → Json} {a? : Option α}
    (hwrite : ∀ a ∈ a?, (write a).isBounded = true) : (ofOption write a?).isBounded = true := by
  cases a? with
  | none => exact isBounded_null
  | some a => exact hwrite a rfl

@[simp] theorem isBounded_ofText? (s : Option String) : (ofText? s).isBounded = true :=
  isBounded_ofOption fun s _ => isBounded_str s

theorem isBounded_ofFloat (x : Binary64) : (ofFloat x).isBounded = true := by
  unfold ofFloat
  split
  next hfinite => rwa [isBounded, Number.isBounded]
  next => exact isBounded_null

end Json

namespace Loose

variable {j : Option Json}

theorem optionBounded_field? (hj : OptionBounded j) (key : String) :
    OptionBounded (field? j key) := by
  intro v hv
  obtain ⟨whole, hwhole, hfield⟩ := Option.bind_eq_some_iff.mp hv
  exact optionBounded_get? (hj whole hwhole) key v hfield

theorem isBounded_orNull (hj : OptionBounded j) : (orNull j).isBounded = true := by
  cases j with
  | none => exact Json.isBounded_null
  | some v => exact hj v rfl

theorem items_bounded (hj : OptionBounded j) :
    (items j).length < 2 ^ 64 ∧ ∀ item ∈ items j, item.isBounded = true := by
  unfold items
  split
  next list => exact (Json.isBounded_arr list).mp (hj _ rfl)
  next => exact ⟨by decide, nofun⟩

theorem isBounded_map_items (hj : OptionBounded j) {make : Json → Json}
    (hmake : ∀ item, item.isBounded = true → (make item).isBounded = true) :
    (Json.arr ((items j).map make)).isBounded = true := by
  obtain ⟨hsmall, hitems⟩ := items_bounded hj
  refine (Json.isBounded_arr _).mpr ⟨by rwa [List.length_map], List.forall_mem_map.mpr ?_⟩
  exact fun item hitem => hmake item (hitems item hitem)

theorem isBounded_mapIdx_items (hj : OptionBounded j) {make : Nat → Json → Json}
    (hmake : ∀ k item, item.isBounded = true → (make k item).isBounded = true) :
    (Json.arr ((items j).mapIdx make)).isBounded = true := by
  obtain ⟨hsmall, hitems⟩ := items_bounded hj
  refine (Json.isBounded_arr _).mpr ⟨by rwa [List.length_mapIdx], fun made hmade => ?_⟩
  obtain ⟨k, hk, rfl⟩ := List.mem_mapIdx.mp hmade
  exact hmake k _ (hitems _ (List.getElem_mem hk))

@[simp] theorem isBounded_pointer (p : Option Pointer) : (pointer p).isBounded = true :=
  Json.isBounded_ofOption fun p _ => by simp [Pointer.toJson]

/-- A temperature that is no finite number is left out, and the number of tokens fits in 32
bits. -/
@[simp] theorem isBounded_model (provider name : Option String)
    (temperature maxTokens : Option Binary64) :
    (model provider name temperature maxTokens).isBounded = true := by
  refine Json.isBounded_object ?_
  simp only [List.forall_mem_cons, Json.isBounded_ofText?, Json.isBounded_str, true_and]
  refine ⟨Json.isBounded_ofOption fun x _ => Json.isBounded_ofFloat x,
    Json.isBounded_ofOption fun x _ => ?_, nofun⟩
  obtain ⟨n, hn, hsmall⟩ := Params.exists_clampedInt_eq x
  rw [hn, Json.isBounded, Number.isBounded, decide_eq_true_iff]
  omega

end Loose

/-! ## Records -/

/-- The constant of an input is bounded, if it has one. -/
def RecordInput.IsBounded (i : RecordInput) : Prop :=
  ∀ j, i.value = .literal j → j.isBounded = true

theorem RecordInput.isBounded_pointer (name : String) (type : Option String) (p : Pointer) :
    IsBounded ⟨name, type, .pointer p⟩ :=
  nofun

theorem RecordInput.isBounded_literal {j : Json} (name : String) (type : Option String)
    (hj : j.isBounded = true) : IsBounded ⟨name, type, .literal j⟩ := by
  rintro _ ⟨⟩
  exact hj

/-- The parameters and the constants of a record are bounded. -/
structure Record.IsBounded (r : Record) : Prop where
  params : ∀ entry ∈ r.params, entry.2.isBounded = true
  inputs : ∀ i ∈ r.inputs, i.IsBounded

theorem Record.IsBounded.withParams {r : Record} {settings : List (String × Json)}
    (hr : r.IsBounded) (hparams : r.params = [])
    (hsettings : ∀ e ∈ settings, e.2.isBounded = true) : (r.withParams settings).IsBounded where
  params := by
    rw [Record.withParams, hparams]
    exact fun e he => hsettings e (Fields.mem_of_mem_ofList he)
  inputs := hr.inputs

theorem Record.IsBounded.withInputs {r : Record} (hr : r.IsBounded) {inputs : List RecordInput}
    (hinputs : ∀ i ∈ inputs, i.IsBounded) (outputs : List RecordOutput) :
    IsBounded { r with inputs := inputs, outputs := outputs } :=
  ⟨hr.params, hinputs⟩

theorem Record.IsBounded.withOutput {r : Record} (hr : r.IsBounded) (name : String)
    (type : Option String) : (r.withOutput name type).IsBounded :=
  hr.withInputs hr.inputs _

namespace Dify

theorem isBounded_selectorInput? {j : Json} {i : RecordInput} (hj : j.isBounded = true)
    (hi : selectorInput? j = some i) : i.IsBounded := by
  obtain ⟨name, -, rfl⟩ := Option.map_eq_some_iff.mp hi
  split
  · exact RecordInput.isBounded_pointer _ _ _
  · exact RecordInput.isBounded_literal _ _ (Loose.isBounded_orNull (optionBounded_get? hj _))

theorem isBounded_selectorInputs {j : Option Json} (hj : OptionBounded j) :
    ∀ i ∈ (Loose.items j).filterMap selectorInput?, i.IsBounded := by
  intro i hi
  obtain ⟨item, hitem, hinput⟩ := List.mem_filterMap.mp hi
  exact isBounded_selectorInput? ((Loose.items_bounded hj).2 item hitem) hinput

theorem isBounded_condition {j : Json} (hj : j.isBounded = true) :
    (condition j).isBounded = true := by
  refine Json.isBounded_object ?_
  simp [Loose.isBounded_orNull (optionBounded_get? hj _)]

theorem isBounded_branch (id : String) (logic : Option Json) {conditions : Option Json}
    (hconditions : OptionBounded conditions) : (branch id logic conditions).isBounded = true := by
  refine Json.isBounded_object ?_
  simp only [List.forall_mem_cons, Json.isBounded_str, true_and]
  exact ⟨Loose.isBounded_map_items hconditions fun _ => isBounded_condition, nofun⟩

theorem isBounded_branches {data : List (String × Json)}
    (hdata : ∀ entry ∈ data, entry.2.isBounded = true) : (branches data).isBounded = true := by
  unfold branches
  split
  next cases hcases =>
      obtain ⟨hsmall, hitems⟩ := (Json.isBounded_arr cases).mp
        (optionBounded_tableGet? hdata "cases" _ hcases)
      refine (Json.isBounded_arr _).mpr ⟨by rwa [List.length_map], List.forall_mem_map.mpr ?_⟩
      exact fun c hc => isBounded_branch _ _ (optionBounded_get? (hitems c hc) _)
  next =>
      refine (Json.isBounded_arr _).mpr ⟨Nat.one_lt_two_pow (by decide), ?_⟩
      refine List.forall_mem_singleton.mpr ?_
      exact isBounded_branch _ _ (optionBounded_tableGet? hdata _)

theorem isBounded_classLabel (j : Json) : (classLabel j).isBounded = true :=
  Json.isBounded_object (by simp)

theorem isBounded_withSettings {data : List (String × Json)}
    (hdata : ∀ entry ∈ data, entry.2.isBounded = true) {r : Record} (hr : r.IsBounded)
    (hparams : r.params = []) : (withSettings data r).IsBounded := by
  have hget := optionBounded_tableGet? hdata
  unfold withSettings
  extract_lets get text pointer
  split
  · exact hr.withInputs hr.inputs _
  · exact hr.withInputs (isBounded_selectorInputs (hget _)) _
  · exact hr.withParams hparams (by simp [text])
  · exact (hr.withParams hparams (by simp [model])).withOutput _ _
  · exact (hr.withParams hparams (by simp [text])).withInputs
      (isBounded_selectorInputs (hget _)) _
  · exact hr.withParams hparams (by simp [isBounded_branches hdata])
  · have hclasses := Loose.isBounded_map_items (hget "classes") fun j _ => isBounded_classLabel j
    refine (hr.withParams hparams ?_).withOutput _ _
    simpa [text, pointer, model] using (Json.isBounded_arr _).mp hclasses
  · exact (hr.withParams hparams (by simp [text, pointer])).withOutput _ _
  · exact hr

/-- The record of a bounded node is bounded. -/
theorem isBounded_toRecord {e : NodeEntry} (he : e.IsBounded) : e.toRecord.IsBounded :=
  isBounded_withSettings he ⟨nofun, nofun⟩ rfl

end Dify

namespace Coze

theorem isBounded_input? {j : Json} {i : RecordInput} (hj : j.isBounded = true)
    (hi : input? j = some i) : i.IsBounded := by
  obtain ⟨name, -, rfl⟩ := Option.map_eq_some_iff.mp hi
  dsimp only
  split
  · exact RecordInput.isBounded_pointer _ _ _
  · refine RecordInput.isBounded_literal _ _ (Loose.isBounded_orNull fun v hv => ?_)
    obtain ⟨whole, hwhole, hpath⟩ := Option.bind_eq_some_iff.mp hv
    exact optionBounded_at? (optionBounded_get? hj _ whole hwhole) _ v hpath

theorem isBounded_condition {j : Json} (hj : j.isBounded = true) :
    (condition j).isBounded = true := by
  refine Json.isBounded_object ?_
  simp [Loose.isBounded_orNull (optionBounded_at? hj _)]

theorem isBounded_branch (index : Nat) {j : Json} (hj : j.isBounded = true) :
    (branch index j).isBounded = true := by
  have hgroup := Loose.optionBounded_field? (optionBounded_get? hj "condition") "conditions"
  refine Json.isBounded_object ?_
  simp only [List.forall_mem_cons, Json.isBounded_str, true_and]
  exact ⟨Loose.isBounded_map_items hgroup fun _ => isBounded_condition, nofun⟩

theorem isBounded_classLabel (index : Nat) (j : Json) : (classLabel index j).isBounded = true :=
  Json.isBounded_object (by simp)

theorem isBounded_withSettings {data : List (String × Json)}
    (hdata : ∀ entry ∈ data, entry.2.isBounded = true) {r : Record} (hr : r.IsBounded)
    (hparams : r.params = []) : (withSettings data r).IsBounded := by
  have hget (key : String) : OptionBounded (Loose.field? (Fields.get? "inputs" data) key) :=
    Loose.optionBounded_field? (optionBounded_tableGet? hdata _) key
  unfold withSettings
  extract_lets get settings setting
  split
  · exact hr.withParams hparams (by simp)
  · exact hr.withParams hparams (by simp [model])
  · exact hr.withParams hparams (by simp)
  · have hbranches := Loose.isBounded_mapIdx_items (hget "branches") fun k _ => isBounded_branch k
    exact hr.withParams hparams (List.forall_mem_singleton.mpr hbranches)
  · have hclasses := Loose.isBounded_mapIdx_items (hget "intents") fun k j _ =>
      isBounded_classLabel k j
    refine hr.withParams hparams ?_
    simpa [model] using (Json.isBounded_arr _).mp hclasses
  · exact hr.withParams hparams (by simp)
  · exact hr

/-- The record of a node with bounded data is bounded, with or without a body. -/
theorem isBounded_toRecord {e : NodeEntry} (he : ∀ entry ∈ e.data, entry.2.isBounded = true) :
    e.toRecord.IsBounded := by
  have hdeclared : OptionBounded
      (Loose.field? (Fields.get? "inputs" e.data) "inputParameters") :=
    Loose.optionBounded_field? (optionBounded_tableGet? he _) _
  have hhead : e.head.IsBounded := by
    refine isBounded_withSettings he ⟨nofun, fun i hi => ?_⟩ rfl
    obtain ⟨item, hitem, hinput⟩ := List.mem_filterMap.mp hi
    exact isBounded_input? ((Loose.items_bounded hdeclared).2 item hitem) hinput
  rw [toRecord_eq]
  split
  · exact ⟨hhead.params, hhead.inputs⟩
  · exact hhead

end Coze

namespace Bailian

theorem isBounded_value (name : String) (type : Option String) {j : Json}
    (hj : j.isBounded = true) : RecordInput.IsBounded ⟨name, type, value j⟩ := by
  unfold value
  split
  · exact RecordInput.isBounded_pointer _ _ _
  · exact RecordInput.isBounded_literal _ _ hj

@[simp] theorem isBounded_template (j : Option Json) : (template j).isBounded = true :=
  Loose.isBounded_pointer _

theorem isBounded_condition {j : Json} (hj : j.isBounded = true) :
    (condition j).isBounded = true := by
  refine Json.isBounded_object ?_
  simp [Loose.isBounded_orNull (optionBounded_get? hj _)]

theorem isBounded_branch (index : Nat) {j : Json} (hj : j.isBounded = true) :
    (branch index j).isBounded = true := by
  refine Json.isBounded_object ?_
  simp only [List.forall_mem_cons, idOrIndex, Json.isBounded_str, true_and]
  exact ⟨Loose.isBounded_map_items (optionBounded_get? hj _) fun _ => isBounded_condition, nofun⟩

theorem isBounded_classLabel (index : Nat) (j : Json) : (classLabel index j).isBounded = true := by
  unfold classLabel
  split <;> exact Json.isBounded_object (by simp [idOrIndex])

theorem isBounded_withSettings {config : List (String × Json)}
    (hconfig : ∀ entry ∈ config, entry.2.isBounded = true) {r : Record} (hr : r.IsBounded)
    (hparams : r.params = []) : (withSettings config r).IsBounded := by
  have hget := optionBounded_tableGet? hconfig
  unfold withSettings
  extract_lets get text
  split
  · exact hr.withParams hparams (by simp [text])
  · exact hr.withParams hparams (by simp [text, model])
  · exact hr.withParams hparams (by simp [text])
  · have hbranches := Loose.isBounded_mapIdx_items (hget "branches") fun k _ => isBounded_branch k
    exact hr.withParams hparams (List.forall_mem_singleton.mpr hbranches)
  · have hclasses := Loose.isBounded_mapIdx_items (hget "intentions") fun k j _ =>
      isBounded_classLabel k j
    refine hr.withParams hparams ?_
    simpa [text, model] using (Json.isBounded_arr _).mp hclasses
  · exact hr.withParams hparams (by simp [text])
  · exact hr

/-- The record of a bounded node is bounded. -/
theorem isBounded_toRecord {e : NodeEntry} (he : e.IsBounded) : e.toRecord.IsBounded :=
  isBounded_withSettings he.config
    ⟨nofun, List.forall_mem_map.mpr fun p hp => isBounded_value _ _ (he.inputs p hp)⟩ rfl

end Bailian

/-- The records of an export are bounded if every value in it is. -/
theorem Platform.isBounded_of_parseDocument {p : Platform} {exported : Json} {d : Document}
    (hbounded : exported.isBounded = true) (hparse : p.parseDocument exported = .ok d)
    {r : Record} (hr : d.Holds r) : r.IsBounded := by
  have hshape := reshape_of_parseDocument hparse
  cases p with
  | dify =>
      obtain ⟨e, he, rfl⟩ := Dify.exists_toRecord_of_parse hshape hr
      exact Dify.isBounded_toRecord (Dify.isBounded_of_mem_exportedNodes hbounded e he)
  | coze =>
      obtain ⟨e, he, rfl⟩ := Coze.exists_toRecord_of_parse hshape hr
      exact Coze.isBounded_toRecord (Coze.isBounded_of_mem_exportedNodes hbounded e he)
  | bailian =>
      obtain ⟨e, he, rfl⟩ := Bailian.exists_toRecord_of_parse hshape hr
      exact Bailian.isBounded_toRecord (Bailian.isBounded_of_mem_exportedNodes hbounded e he)

end WorkflowGraph
