/-
# The positions of branches

A node of an export declares its branches or classes in a list, and the edges that leave
it name a branch by its position in that list. The adapter rewrites the list, the decoder
reads it again and numbers it again; the branches of the node are those of the list, one
for each element in its place, whatever the elements are. So the position that an edge
names on the node is the position in the export.
-/

import WorkflowGraph.Proofs.AssembledLevels
import WorkflowGraph.Proofs.HandleSpelling
import WorkflowGraph.Proofs.ParamValues
import WorkflowGraph.Proofs.WrittenHandles

namespace WorkflowGraph

/-- The list of branches or classes that a node of an export declares. -/
structure BranchList where
  id : String
  tag : String
  items : List Json

namespace Dify

/-- The class that an element at a position declares. -/
def classOf (index : Nat) (j : Json) : ClassLabel :=
  ⟨Decoder.idOrIndex (Loose.text? (j.get? "id")) index, Loose.text (j.get? "name")⟩

/-- The branch that an element at a position declares, without the references in it. -/
def caseOf (index : Nat) (j : Json) : BranchCase :=
  ⟨Decoder.idOrIndex (Loose.text? (j.get? "case_id")) index,
    Decoder.logicalOperator (Loose.text? (j.get? "logical_operator")),
    (Loose.items (j.get? "conditions")).map fun c =>
      ⟨none, Loose.text (c.get? "comparison_operator"), .ofJson (Loose.orNull (c.get? "value"))⟩⟩

/-- The branches that the data of a node declares. The single group of conditions of an
older export counts as one element. -/
def declaredBranches (data : List (String × Json)) : List Json :=
  match Fields.get? "cases" data with
  | some (.arr cases) => cases
  | _ =>
    [.obj [("case_id", .str trueHandle),
      ("conditions", Loose.orNull (Fields.get? "conditions" data)),
      ("logical_operator", Loose.orNull (Fields.get? "logical_operator" data))]]

/-- The list that a node declares, if it has the tag of a condition or a classifier. -/
def NodeEntry.branchList? (e : NodeEntry) : Option BranchList :=
  if e.tag = "if-else" then some ⟨e.id, e.tag, declaredBranches e.data⟩
  else if e.tag = "question-classifier" then
    some ⟨e.id, e.tag, Loose.items (Fields.get? "classes" e.data)⟩
  else none

end Dify

namespace Coze

/-- The class that an element at a position declares: elements have no ids. -/
def classOf (index : Nat) (j : Json) : ClassLabel :=
  ⟨Text.ofInt index, Loose.text (j.get? "name")⟩

/-- The branch that an element at a position declares, without the references in it. -/
def caseOf (index : Nat) (j : Json) : BranchCase :=
  let group := j.get? "condition"
  ⟨Text.ofInt index, if joinsByOr (Loose.field? group "logic") then .or else .and,
    (Loose.items (Loose.field? group "conditions")).map fun c =>
      ⟨none, operator (c.get? "operator"),
        .ofJson (Loose.orNull (c.at? ["right", "input", "value", "content"]))⟩⟩

/-- The list that a node declares, if it has the tag of a condition or a classifier. -/
def NodeEntry.branchList? (e : NodeEntry) : Option BranchList :=
  let declared (key : String) : List Json :=
    Loose.items (Loose.field? (Fields.get? "inputs" e.data) key)
  if e.tag = "8" then some ⟨e.id, e.tag, declared "branches"⟩
  else if e.tag = "22" then some ⟨e.id, e.tag, declared "intents"⟩
  else none

end Coze

namespace Bailian

/-- The class that an element at a position declares: a plain name, or an object. -/
def classOf (index : Nat) : Json → ClassLabel
  | .str name => ⟨Text.ofInt index, name⟩
  | j => ⟨Decoder.idOrIndex (Loose.text? (j.get? "id")) index, Loose.text (j.get? "name")⟩

/-- The branch that an element at a position declares, without the references in it. -/
def caseOf (index : Nat) (j : Json) : BranchCase :=
  ⟨Decoder.idOrIndex (Loose.text? (j.get? "id")) index,
    Decoder.logicalOperator (Loose.text? (j.get? "logic")),
    (Loose.items (j.get? "conditions")).map fun c =>
      ⟨none, Loose.text (c.get? "operator"), .ofJson (Loose.orNull (c.get? "right"))⟩⟩

/-- The list that a node declares, if it has the tag of a condition or a classifier. -/
def NodeEntry.branchList? (e : NodeEntry) : Option BranchList :=
  if e.type = "Judge" then some ⟨e.id, e.type, Loose.items (Fields.get? "branches" e.config)⟩
  else if e.type = "Classifier" then
    some ⟨e.id, e.type, Loose.items (Fields.get? "intentions" e.config)⟩
  else none

end Bailian

namespace Platform

/-- The class that an element at a position declares. -/
def classOf : Platform → Nat → Json → ClassLabel
  | .dify => Dify.classOf
  | .coze => Coze.classOf
  | .bailian => Bailian.classOf

/-- The branch that an element at a position declares, without the references in it. -/
def caseOf : Platform → Nat → Json → BranchCase
  | .dify => Dify.caseOf
  | .coze => Coze.caseOf
  | .bailian => Bailian.caseOf

/-- The lists that the nodes of an export declare, at any depth. -/
def branchLists (p : Platform) (exported : Json) : List BranchList :=
  match p with
  | .dify => (Dify.exportedNodes exported).filterMap Dify.NodeEntry.branchList?
  | .coze => (Coze.exportedNodes exported).filterMap Coze.NodeEntry.branchList?
  | .bailian => (Bailian.exportedNodes exported).filterMap Bailian.NodeEntry.branchList?

/-- A record is that of a node of an export, and the node declares a list. -/
def Declares (p : Platform) (exported : Json) (r : Record) (b : BranchList) : Prop :=
  match p with
  | .dify => ∃ e ∈ Dify.exportedNodes exported, e.toRecord = r ∧ e.branchList? = some b
  | .coze => ∃ e ∈ Coze.exportedNodes exported, e.toRecord = r ∧ e.branchList? = some b
  | .bailian => ∃ e ∈ Bailian.exportedNodes exported, e.toRecord = r ∧ e.branchList? = some b

theorem Declares.mem_branchLists {p : Platform} {exported : Json} {r : Record} {b : BranchList}
    (hdeclares : p.Declares exported r b) : b ∈ p.branchLists exported := by
  cases p <;> exact List.mem_filterMap.mpr (hdeclares.imp fun _ he => ⟨he.1, he.2.2⟩)

/-- The port on which an edge leaves a node by the branch at a position. Dify calls the
ports by the ids of the branches. -/
def branchPort? : Platform → NodeKind → Nat → Option String
  | .coze, .condition, 0 => some "true"
  | .coze, .condition, k => some (Handle.numbered "true_" k)
  | .coze, .classifier, k | .bailian, .condition, k | .bailian, .classifier, k =>
    some (Handle.numbered "branch_" k)
  | _, _, _ => none

end Platform

/-- The settings declare one branch or class for each element of a list, in its place. -/
def Config.Lists (p : Platform) (items : List Json) (config : Config) : Prop :=
  match config.shell with
  | .condition cases => cases = items.mapIdx p.caseOf
  | .classifier c => c.classes = items.mapIdx p.classOf
  | _ => False

theorem map_mapIdx {α β γ : Type} (f : Nat → α → β) (g : β → γ) (as : List α) :
    (as.mapIdx f).map g = as.mapIdx fun k a => g (f k a) :=
  List.ext_getElem (by simp) (by simp)

/-- A list that is made without positions is made with them. -/
theorem map_eq_mapIdx {α β : Type} (f : α → β) (as : List α) :
    as.map f = as.mapIdx fun _ => f :=
  List.ext_getElem (by simp) (by simp)

namespace Decoder

/-- The branch that parameters at a position describe, without the references in it. -/
def bareCase (index : Nat) (p : Params.Case) : BranchCase :=
  ⟨idOrIndex p.id index, logicalOperator p.logicalOperator,
    p.conditions.map fun o => ⟨none, o.operator, .ofJson o.right⟩⟩

theorem config_withDefaultOutput (name : String) (n : Node) :
    (withDefaultOutput name n).config = n.config := by
  unfold withDefaultOutput
  split <;> rfl

variable {p : Platform} {r : Record} {items : List Json}

/-- A condition whose parameters list one branch for each element declares them all. -/
theorem lists_condition (htag : p.kindOfTag? r.tag = some .condition) {cases : Json}
    (hparams : r.params = Fields.ofList [("cases", cases)]) {view : Nat → Json → Params.Case}
    (hcases : Json.Reader.list Params.branch cases = .ok (items.mapIdx view))
    (hview : ∀ k j, bareCase k (view k j) = p.caseOf k j) (ctx : DecodeContext) :
    ∃ n, (Registry.withDefaults p).decode ctx r = .ok n ∧ n.config.Lists p items := by
  have hread := Params.read_condition hcases
  rw [Json.object, ← hparams] at hread
  refine ⟨ctx.node r (.condition ((items.mapIdx view).mapIdx (branchCase ctx))), ?_, ?_⟩
  · simp only [Registry.decode, Registry.decoder, Registry.get?_decoders_withDefaults, htag]
    show decodeCondition ctx r = _
    simp only [decodeCondition, Params.read, hread]
    rfl
  · show _ = _
    rw [List.mapIdx_mapIdx, map_mapIdx]
    refine congrArg (items.mapIdx ·) (funext₂ fun k j => ?_)
    rw [← hview k j]
    simp [branchCase, bareCase, condition]

/-- A classifier whose parameters list one class for each element declares them all. -/
theorem lists_classifier (htag : p.kindOfTag? r.tag = some .classifier) {m classes : Json}
    {model : Model} {query : Option Pointer} {instruction : Option String}
    (hparams : r.params = Fields.ofList [("model", m), ("query", Loose.pointer query),
      ("instruction", .ofText? instruction), ("classes", classes)])
    (hmodel : Params.model m = .ok model) {view : Nat → Json → Params.ClassEntry}
    (hclasses : Json.Reader.list Params.classEntry classes = .ok (items.mapIdx view))
    (hview : ∀ k j, classLabel k (view k j) = p.classOf k j) (ctx : DecodeContext) :
    ∃ n, (Registry.withDefaults p).decode ctx r = .ok n ∧ n.config.Lists p items := by
  have hread := Params.read_classifier hmodel query instruction hclasses
  rw [Json.object, ← hparams] at hread
  refine ⟨withDefaultOutput "class_name" (ctx.node r (.classifier ⟨model,
    query.map fun pointer => ctx.capture pointer .string, instruction.filter fun s => !s.isEmpty,
      (items.mapIdx view).mapIdx classLabel⟩)), ?_, ?_⟩
  · simp only [Registry.decode, Registry.decoder, Registry.get?_decoders_withDefaults, htag]
    show decodeClassifier ctx r = _
    simp only [decodeClassifier, Params.read, hread]
    rfl
  · rw [config_withDefaultOutput]
    show _ = _
    rw [List.mapIdx_mapIdx]
    exact congrArg (items.mapIdx ·) (funext₂ hview)

theorem idOrIndex_ofInt (index : Nat) :
    idOrIndex (some (Text.ofInt index)) index = Text.ofInt index := by
  rw [idOrIndex, Option.filter_some]
  split <;> rfl

theorem idOrIndex_getD (id : Option String) (index : Nat) :
    idOrIndex (some (id.getD "")) index = idOrIndex id index := by
  cases id <;> rfl

theorem logicalOperator_getD (logic : Option String) :
    logicalOperator (some (logic.getD "and")) = logicalOperator logic := by
  cases logic <;> rfl

end Decoder

namespace Dify

open Params

theorem read_condition_condition (j : Json) :
    operand (condition j) = .ok ⟨selector? (j.get? "variable_selector"),
      Loose.text (j.get? "comparison_operator"), Loose.orNull (j.get? "value")⟩ :=
  read_operand _ _ _

/-- The parameters of the branch that an element declares. -/
def caseParams (j : Json) : Params.Case :=
  ⟨some (Loose.text (j.get? "case_id")),
    some ((Loose.text? (j.get? "logical_operator")).getD "and"),
    (Loose.items (j.get? "conditions")).map fun c =>
      ⟨selector? (c.get? "variable_selector"), Loose.text (c.get? "comparison_operator"),
        Loose.orNull (c.get? "value")⟩⟩

theorem read_branch_branch (j : Json) :
    Params.branch (branch (Loose.text (j.get? "case_id")) (j.get? "logical_operator")
      (j.get? "conditions")) = .ok (caseParams j) :=
  read_branch _ _ (read_list_map read_condition_condition _)

theorem branches_eq (data : List (String × Json)) :
    branches data = .arr ((declaredBranches data).map fun j =>
      branch (Loose.text (j.get? "case_id")) (j.get? "logical_operator")
        (j.get? "conditions")) := by
  have holder : ∀ logic conditions : Option Json,
      branch trueHandle logic conditions =
        branch trueHandle (some (Loose.orNull logic)) (some (Loose.orNull conditions)) := by
    intro logic conditions
    cases logic <;> cases conditions <;> rfl
  unfold branches declaredBranches
  cases Fields.get? "cases" data with
  | none => exact congrArg (fun j => Json.arr [j]) (holder _ _)
  | some j =>
      cases j with
      | arr cases => rfl
      | _ => exact congrArg (fun j => Json.arr [j]) (holder _ _)

theorem withSettings_of_condition {data : List (String × Json)} {r : Record}
    (htag : r.tag = "if-else") : withSettings data r = r.withParams [("cases", branches data)] := by
  simp only [withSettings, htag]

theorem withSettings_of_classifier {data : List (String × Json)} {r : Record}
    (htag : r.tag = "question-classifier") : withSettings data r =
      (r.withParams [("model", model (Fields.get? "model" data)),
        ("query", Loose.pointer (selector? (Fields.get? "query_variable_selector" data))),
        ("instruction", .ofText? (Loose.text? (Fields.get? "instruction" data))),
        ("classes", .arr ((Loose.items (Fields.get? "classes" data)).map classLabel))]).withOutput
          "class_name" (some "string") := by
  simp only [withSettings, htag]

/-- The parameters of the class that an element declares. -/
def classParams (j : Json) : Params.ClassEntry :=
  ⟨Loose.text? (j.get? "id"), (Loose.text? (j.get? "name")).getD ""⟩

theorem read_classEntry_classLabel (j : Json) : classEntry (classLabel j) = .ok (classParams j) :=
  read_classEntry (read_text?_ofText? _) (read_text?_ofText? _)

theorem bareCase_caseParams (index : Nat) (j : Json) :
    Decoder.bareCase index (caseParams j) = caseOf index j := by
  simp only [Decoder.bareCase, caseParams, caseOf, Decoder.logicalOperator_getD, List.map_map,
    Loose.text, Decoder.idOrIndex_getD]
  rfl

/-- The record of a node is decoded to a node with its branches or classes. -/
theorem lists_decode {e : NodeEntry} {b : BranchList} (hb : e.branchList? = some b)
    (ctx : DecodeContext) : ∃ n, (Registry.withDefaults .dify).decode ctx e.toRecord = .ok n ∧
      n.config.Lists .dify b.items := by
  unfold NodeEntry.branchList? at hb
  split at hb
  next htag =>
      obtain rfl := Option.some.inj hb
      rw [NodeEntry.toRecord, withSettings_of_condition htag]
      refine Decoder.lists_condition (by exact congrArg _ htag) rfl ?_ bareCase_caseParams ctx
      rw [branches_eq, map_eq_mapIdx]
      exact read_list_mapIdx (fun _ => read_branch_branch) _
  next =>
    split at hb
    next htag =>
      obtain rfl := Option.some.inj hb
      rw [NodeEntry.toRecord, withSettings_of_classifier htag]
      have hview : ∀ k j, Decoder.classLabel k (classParams j) = Platform.dify.classOf k j :=
        fun _ _ => rfl
      refine Decoder.lists_classifier (by exact congrArg _ htag) rfl (read_model _ _ _ _) ?_
        hview ctx
      rw [map_eq_mapIdx]
      exact read_list_mapIdx (fun _ => read_classEntry_classLabel) _
    next => cases hb

/-- A node with the tag of a condition or a classifier declares a list. -/
theorem exists_branchList {e : NodeEntry} {kind : NodeKind}
    (hkind : Platform.dify.kindOfTag? e.tag = some kind) (hbranching : kind.isBranching = true) :
    ∃ b, e.branchList? = some b ∧ b.id = e.id ∧ b.tag = e.tag := by
  have hall : ∀ entry ∈ Platform.dify.nodeTags, entry.2.isBranching = true →
      entry.1 = "if-else" ∨ entry.1 = "question-classifier" := by
    decide
  have htags : e.tag = "if-else" ∨ e.tag = "question-classifier" :=
    hall _ (Registry.mem_nodeTags_of_kindOfTag? hkind) hbranching
  unfold NodeEntry.branchList?
  rcases htags with htag | htag
  · exact ⟨_, if_pos htag, rfl, rfl⟩
  · exact ⟨_, (if_neg (by rw [htag]; decide)).trans (if_pos htag), rfl, rfl⟩

end Dify

namespace Coze

open Params

theorem withSettings_of_condition {data : List (String × Json)} {r : Record} (htag : r.tag = "8") :
    withSettings data r = r.withParams [("cases", .arr
      ((Loose.items (Loose.field? (Fields.get? "inputs" data) "branches")).mapIdx branch))] := by
  simp only [withSettings, htag]

theorem withSettings_of_classifier {data : List (String × Json)} {r : Record}
    (htag : r.tag = "22") : withSettings data r =
      let settings := Loose.pairs (Loose.field? (Fields.get? "inputs" data) "llmParam")
      r.withParams [("model", model settings), ("query", Loose.pointer (firstPointer? r.inputs)),
        ("instruction", .ofText? (Loose.text? (Fields.get? "systemPrompt" settings))),
        ("classes", .arr ((Loose.items (Loose.field? (Fields.get? "inputs" data) "intents")).mapIdx
          classLabel))] := by
  simp only [withSettings, htag]

theorem read_condition_condition (j : Json) :
    operand (condition j) = .ok ⟨pointer? (j.at? ["left", "input"]), operator (j.get? "operator"),
      Loose.orNull (j.at? ["right", "input", "value", "content"])⟩ :=
  read_operand _ _ _

/-- The parameters of the branch that an element at a position declares. -/
def caseParams (index : Nat) (j : Json) : Params.Case :=
  let group := j.get? "condition"
  ⟨some (Text.ofInt index), some (if joinsByOr (Loose.field? group "logic") then "or" else "and"),
    (Loose.items (Loose.field? group "conditions")).map fun c =>
      ⟨pointer? (c.at? ["left", "input"]), operator (c.get? "operator"),
        Loose.orNull (c.at? ["right", "input", "value", "content"])⟩⟩

theorem read_branch_branch (index : Nat) (j : Json) :
    Params.branch (branch index j) = .ok (caseParams index j) :=
  read_branch _ _ (read_list_map read_condition_condition _)

theorem bareCase_caseParams (index : Nat) (j : Json) :
    Decoder.bareCase index (caseParams index j) = caseOf index j := by
  have hlogic : ∀ joins : Bool,
      Decoder.logicalOperator (some (if joins then "or" else "and")) =
        if joins then .or else .and := by
    decide
  simp only [Decoder.bareCase, caseParams, caseOf, hlogic, List.map_map, Decoder.idOrIndex_ofInt]
  rfl

/-- The parameters of the class that an element at a position declares. -/
def classParams (index : Nat) (j : Json) : Params.ClassEntry :=
  ⟨some (Text.ofInt index), Loose.text (j.get? "name")⟩

theorem read_classEntry_classLabel (index : Nat) (j : Json) :
    classEntry (classLabel index j) = .ok (classParams index j) :=
  read_classEntry_str _ _

theorem classLabel_classParams (index : Nat) (j : Json) :
    Decoder.classLabel index (classParams index j) = classOf index j := by
  rw [Decoder.classLabel, classParams, classOf, Decoder.idOrIndex_ofInt]

/-- The record of a node is decoded to a node with its branches or classes. -/
theorem lists_decode {e : NodeEntry} {b : BranchList} (hb : e.branchList? = some b)
    (ctx : DecodeContext) : ∃ n, (Registry.withDefaults .coze).decode ctx e.toRecord = .ok n ∧
      n.config.Lists .coze b.items := by
  unfold NodeEntry.branchList? at hb
  split at hb
  next htag =>
      obtain rfl := Option.some.inj hb
      rw [toRecord_eq, if_neg (by rw [htag]; decide), NodeEntry.head,
        withSettings_of_condition htag]
      refine Decoder.lists_condition (by exact congrArg _ htag) rfl ?_ bareCase_caseParams ctx
      exact read_list_mapIdx read_branch_branch _
  next =>
    split at hb
    next htag =>
      obtain rfl := Option.some.inj hb
      rw [toRecord_eq, if_neg (by rw [htag]; decide), NodeEntry.head,
        withSettings_of_classifier htag]
      refine Decoder.lists_classifier (by exact congrArg _ htag) rfl (read_model _ _ _ _) ?_
        classLabel_classParams ctx
      exact read_list_mapIdx read_classEntry_classLabel _
    next => cases hb

/-- A node with the tag of a condition or a classifier declares a list. -/
theorem exists_branchList {e : NodeEntry} {kind : NodeKind}
    (hkind : Platform.coze.kindOfTag? e.tag = some kind) (hbranching : kind.isBranching = true) :
    ∃ b, e.branchList? = some b ∧ b.id = e.id ∧ b.tag = e.tag := by
  have hall : ∀ entry ∈ Platform.coze.nodeTags, entry.2.isBranching = true →
      entry.1 = "8" ∨ entry.1 = "22" := by
    decide
  have htags : e.tag = "8" ∨ e.tag = "22" :=
    hall _ (Registry.mem_nodeTags_of_kindOfTag? hkind) hbranching
  unfold NodeEntry.branchList?
  rcases htags with htag | htag
  · exact ⟨_, if_pos htag, rfl, rfl⟩
  · exact ⟨_, (if_neg (by rw [htag]; decide)).trans (if_pos htag), rfl, rfl⟩

end Coze

namespace Bailian

open Params

theorem withSettings_of_condition {config : List (String × Json)} {r : Record}
    (htag : r.tag = "Judge") : withSettings config r =
      r.withParams [("cases",
        .arr ((Loose.items (Fields.get? "branches" config)).mapIdx branch))] := by
  simp only [withSettings, htag]

theorem withSettings_of_classifier {config : List (String × Json)} {r : Record}
    (htag : r.tag = "Classifier") : withSettings config r =
      r.withParams [("model", model config), ("query", template (Fields.get? "query" config)),
        ("instruction", .ofText? (Loose.text? (Fields.get? "instruction" config))),
        ("classes",
          .arr ((Loose.items (Fields.get? "intentions" config)).mapIdx classLabel))] := by
  simp only [withSettings, htag]

theorem read_condition_condition (j : Json) :
    operand (condition j) = .ok ⟨((j.get? "left").bind Json.str?).bind Loose.template?,
      Loose.text (j.get? "operator"), Loose.orNull (j.get? "right")⟩ :=
  read_operand _ _ _

/-- The parameters of the branch that an element at a position declares. -/
def caseParams (index : Nat) (j : Json) : Params.Case :=
  ⟨some ((Loose.text? (j.get? "id")).getD (Text.ofInt index)),
    some ((Loose.text? (j.get? "logic")).getD "and"),
    (Loose.items (j.get? "conditions")).map fun c =>
      ⟨((c.get? "left").bind Json.str?).bind Loose.template?, Loose.text (c.get? "operator"),
        Loose.orNull (c.get? "right")⟩⟩

theorem read_branch_branch (index : Nat) (j : Json) :
    Params.branch (branch index j) = .ok (caseParams index j) :=
  read_branch _ _ (read_list_map read_condition_condition _)

theorem idOrIndex_getD_ofInt (id : Option String) (index : Nat) :
    Decoder.idOrIndex (some (id.getD (Text.ofInt index))) index = Decoder.idOrIndex id index := by
  cases id with
  | none => exact Decoder.idOrIndex_ofInt index
  | some id => rfl

theorem bareCase_caseParams (index : Nat) (j : Json) :
    Decoder.bareCase index (caseParams index j) = caseOf index j := by
  simp only [Decoder.bareCase, caseParams, caseOf, Decoder.logicalOperator_getD, List.map_map,
    idOrIndex_getD_ofInt]
  rfl

/-- The parameters of the class that an element at a position declares. -/
def classParams (index : Nat) : Json → Params.ClassEntry
  | .str name => ⟨some (Text.ofInt index), name⟩
  | j => ⟨some ((Loose.text? (j.get? "id")).getD (Text.ofInt index)), Loose.text (j.get? "name")⟩

theorem read_classEntry_classLabel (index : Nat) (j : Json) :
    classEntry (classLabel index j) = .ok (classParams index j) := by
  cases j <;> exact read_classEntry_str _ _

theorem classLabel_classParams (index : Nat) (j : Json) :
    Decoder.classLabel index (classParams index j) = classOf index j := by
  cases j with
  | str name => exact congrArg (ClassLabel.mk · name) (Decoder.idOrIndex_ofInt index)
  | _ => exact congrArg (ClassLabel.mk · _) (idOrIndex_getD_ofInt _ index)

/-- The record of a node is decoded to a node with its branches or classes. -/
theorem lists_decode {e : NodeEntry} {b : BranchList} (hb : e.branchList? = some b)
    (ctx : DecodeContext) : ∃ n, (Registry.withDefaults .bailian).decode ctx e.toRecord = .ok n ∧
      n.config.Lists .bailian b.items := by
  unfold NodeEntry.branchList? at hb
  split at hb
  next htag =>
      obtain rfl := Option.some.inj hb
      rw [NodeEntry.toRecord, withSettings_of_condition htag]
      refine Decoder.lists_condition (by exact congrArg _ htag) rfl ?_ bareCase_caseParams ctx
      exact read_list_mapIdx read_branch_branch _
  next =>
    split at hb
    next htag =>
      obtain rfl := Option.some.inj hb
      rw [NodeEntry.toRecord, withSettings_of_classifier htag, template]
      refine Decoder.lists_classifier (by exact congrArg _ htag) rfl (read_model _ _ _ _) ?_
        classLabel_classParams ctx
      exact read_list_mapIdx read_classEntry_classLabel _
    next => cases hb

/-- A node with the tag of a condition or a classifier declares a list. -/
theorem exists_branchList {e : NodeEntry} {kind : NodeKind}
    (hkind : Platform.bailian.kindOfTag? e.type = some kind)
    (hbranching : kind.isBranching = true) :
    ∃ b, e.branchList? = some b ∧ b.id = e.id ∧ b.tag = e.type := by
  have hall : ∀ entry ∈ Platform.bailian.nodeTags, entry.2.isBranching = true →
      entry.1 = "Judge" ∨ entry.1 = "Classifier" := by
    decide
  have htags : e.type = "Judge" ∨ e.type = "Classifier" :=
    hall _ (Registry.mem_nodeTags_of_kindOfTag? hkind) hbranching
  unfold NodeEntry.branchList?
  rcases htags with htag | htag
  · exact ⟨_, if_pos htag, rfl, rfl⟩
  · exact ⟨_, (if_neg (by rw [htag]; decide)).trans (if_pos htag), rfl, rfl⟩

end Bailian

namespace Platform

variable {p : Platform} {exported : Json} {d : Document}

/-- Every record of an export with the tag of a condition or a classifier is that of a node
with a list, and is decoded to a node with the branches or classes of that list. -/
theorem lists_of_parseDocument (hparse : p.parseDocument exported = .ok d) {r : Record}
    (hr : d.Holds r) {kind : NodeKind} (hkind : p.kindOfTag? r.tag = some kind)
    (hbranching : kind.isBranching = true) :
    ∃ b, p.Declares exported r b ∧ b.id = r.id ∧ b.tag = r.tag ∧
      ∀ ctx, ∃ n, (Registry.withDefaults p).decode ctx r = .ok n ∧ n.config.Lists p b.items := by
  have hreshape := reshape_of_parseDocument hparse
  cases p with
  | dify =>
      obtain ⟨e, he, rfl⟩ := Dify.exists_toRecord_of_parse hreshape hr
      rw [Dify.tag_toRecord] at hkind
      obtain ⟨b, hb, hid, htag⟩ := Dify.exists_branchList hkind hbranching
      rw [Dify.id_toRecord, Dify.tag_toRecord]
      exact ⟨b, ⟨e, he, rfl, hb⟩, hid, htag, Dify.lists_decode hb⟩
  | coze =>
      obtain ⟨e, he, rfl⟩ := Coze.exists_toRecord_of_parse hreshape hr
      rw [Coze.tag_toRecord] at hkind
      obtain ⟨b, hb, hid, htag⟩ := Coze.exists_branchList hkind hbranching
      rw [Coze.id_toRecord, Coze.tag_toRecord]
      exact ⟨b, ⟨e, he, rfl, hb⟩, hid, htag, Coze.lists_decode hb⟩
  | bailian =>
      obtain ⟨e, he, rfl⟩ := Bailian.exists_toRecord_of_parse hreshape hr
      rw [Bailian.tag_toRecord] at hkind
      obtain ⟨b, hb, hid, htag⟩ := Bailian.exists_branchList hkind hbranching
      rw [Bailian.id_toRecord, Bailian.tag_toRecord]
      exact ⟨b, ⟨e, he, rfl, hb⟩, hid, htag, Bailian.lists_decode hb⟩

end Platform

namespace Handle

/-- The positions on a Coze condition begin with a word of their own. -/
theorem ofCoze_condition {n : Node} {cases : List BranchCase}
    (hconfig : n.config = .condition cases) (k : Nat) : ofCoze (numbered "true_" (k + 1)) n =
      if k + 1 < Nat.pow 2 64 then .case (k + 1) else .raw (numbered "true_" (k + 1)) := by
  have htrue : numbered "true_" (k + 1) ≠ "true" := numbered_ne (by decide) _
  have hfalse : numbered "true_" (k + 1) ≠ "false" := numbered_ne (by decide) _
  by_cases hk : k + 1 < Nat.pow 2 64 <;>
    simp only [ofCoze, hconfig, beq_iff_eq, htrue, hfalse, indexAfter?_numbered_eq, hk,
      Nat.le_add_left, if_true, if_false]

theorem ofCoze_classifier {n : Node} {c : ClassifierConfig} (hconfig : n.config = .classifier c)
    (k : Nat) : ofCoze (numbered "branch_" k) n =
      if k < Nat.pow 2 64 then .case k else .raw (numbered "branch_" k) := by
  have hdefault : numbered "branch_" k ≠ "default" := numbered_ne (by decide) _
  by_cases hk : k < Nat.pow 2 64 <;>
    simp only [ofCoze, hconfig, beq_iff_eq, hdefault, indexAfter?_numbered_eq, hk, if_true,
      if_false]

theorem ofBailian_branch {n : Node} (hbranching : n.kind.isBranching = true) (k : Nat) :
    ofBailian (numbered "branch_" k) n =
      if k < Nat.pow 2 64 then .case k else .raw (numbered "branch_" k) := by
  have hout : numbered "branch_" k ≠ "out" := numbered_ne (by decide) _
  have helse : numbered "branch_" k ≠ "else" := numbered_ne (by decide) _
  by_cases hk : k < Nat.pow 2 64 <;>
    simp only [ofBailian, beq_iff_eq, hout, helse, hbranching, indexAfter?_numbered_eq, hk,
      Bool.not_true, Bool.false_eq_true, if_true, if_false]

/-- The spelling of a branch is read as its position. A position that does not fit in 64
bits is none, and its spelling is kept as it was. -/
theorem ofSpelling_branchPort? {p : Platform} {n : Node} (hconfig : n.config.kind = n.kind)
    {k : Nat} {port : String} (hport : p.branchPort? n.kind k = some port) :
    ofSpelling p (some port) n = if k < Nat.pow 2 64 then .case k else .raw port := by
  have hnumbered : ∀ word, numbered word k ≠ "" := fun word => numbered_ne (by simp) k
  cases p with
  | dify => cases hport
  | coze =>
      cases hkind : n.config with
      | condition cases =>
          rw [← hconfig, hkind] at hport
          cases k with
          | zero =>
              obtain rfl := Option.some.inj hport
              rw [ofSpelling_of_ne (by decide)]
              simp [ofCoze, hkind]
          | succ k =>
              obtain rfl := Option.some.inj hport
              rw [ofSpelling_of_ne (hnumbered _)]
              exact ofCoze_condition hkind k
      | classifier c =>
          rw [← hconfig, hkind] at hport
          obtain rfl := Option.some.inj hport
          rw [ofSpelling_of_ne (hnumbered _)]
          exact ofCoze_classifier hkind k
      | _ =>
          rw [← hconfig, hkind] at hport
          cases hport
  | bailian =>
      have hbranch : n.kind.isBranching = true ∧ port = numbered "branch_" k := by
        cases hkind : n.kind <;> rw [hkind] at hport <;> cases hport
        · exact ⟨rfl, rfl⟩
        · exact ⟨rfl, rfl⟩
      obtain ⟨hbranching, rfl⟩ := hbranch
      rw [ofSpelling_of_ne (hnumbered _)]
      exact ofBailian_branch hbranching k

end Handle

namespace Conversion

variable {p : Platform} {exported : Json} {d : Document} {c : Conversion}

/-- A node of a converted export that is made from a record lists what the node of the export
declares, in a list with a tag of its kind. -/
theorem exists_taggedList_of_finishes (hparse : p.parseDocument exported = .ok d) {r : Record}
    (hr : d.Holds r) {resolver : Resolver} {place : Level} {own n : Node}
    (hown : Lift.Becomes (.withDefaults p) resolver place r own) {part : EdgePartition}
    {present : List String} (hn : own.Finishes part present n)
    (hbranching : n.kind.isBranching = true) :
    ∃ b, p.Declares exported r b ∧ b.id = n.id ∧ p.kindOfTag? b.tag = some n.kind ∧
      n.config.Lists p b.items := by
  have hg : (Registry.withDefaults p).UsesBuiltIns := Registry.Derived.defaults.usesBuiltIns
  rw [hn.kind_eq] at hbranching
  have hshell : n.config.shell = own.config.shell := by
    have hsame : n.shell = (Dangling.cleanNode present own).shell :=
      hn.eq_of_withBody (Node.shell_withBody part)
    rw [Dangling.shell_cleanNode] at hsame
    exact congrArg Node.config hsame
  cases hface : (Registry.withDefaults p).face? r with
  | none =>
      obtain ⟨-, rfl⟩ := hown.eq_placeholder hg hface
      cases hbranching
  | some face =>
      have hsome : ((Registry.withDefaults p).face? r).isSome = true := by rw [hface]; rfl
      obtain ⟨removed, hdecode⟩ := hown.exists_decode hg hsome
      have hkind := hown.kind?_eq hg hsome
      rw [Registry.kind?_withDefaults] at hkind
      rw [← (hown.isFresh hg).config] at hbranching
      obtain ⟨b, hb, hid, htag, hlists⟩ :=
        Platform.lists_of_parseDocument hparse hr hkind hbranching
      obtain ⟨m, hm, hlist⟩ := hlists (Lift.context (.withDefaults p) resolver removed)
      obtain rfl := Except.ok.inj (hm.symm.trans hdecode)
      refine ⟨b, hb, ?_, ?_, ?_⟩
      · rw [hid, hn.id_eq, hown.id_eq hg]
      · rw [htag, hkind, hn.kind_eq, (hown.isFresh hg).config]
      · rwa [Config.Lists, hshell]

/-- A node of a graph is what becomes of the node to which a record is decoded. -/
def MadeFrom (g : Registry) (resolver : Resolver) (r : Record) (n : Node) : Prop :=
  ∃ place own part present, Lift.Becomes g resolver place r own ∧ own.Finishes part present n

/-- The branches and classes of an export keep their positions in its document and in the
graph. Every record with the tag of a condition or a classifier is that of a node of the
export, and is decoded to a node with one branch or class for each element of the list that
this node declares, in its place; the nodes of the graph that are made from such records show
them so; and where the platform numbers the ports of branches, an edge of the graph that
leaves by the port of a position selects the branch at that position. -/
structure KeepsPositions (p : Platform) (exported : Json) (d : Document) (c : Conversion) :
    Prop where
  records : ∀ r, d.Holds r → ∀ kind, p.kindOfTag? r.tag = some kind → kind.isBranching = true →
    ∃ b, p.Declares exported r b ∧ b.id = r.id ∧ b.tag = r.tag ∧ ∀ ctx,
      ∃ n, (Registry.withDefaults p).decode ctx r = .ok n ∧ n.config.Lists p b.items
  nodes : ∃ resolver, Survey.resolver? (.withDefaults p) d = some resolver ∧
    ∀ n ∈ c.graph.walk, n.kind.isBranching = true →
      ∃ r, d.Holds r ∧ MadeFrom (.withDefaults p) resolver r n ∧
        ∃ b, p.Declares exported r b ∧ b.id = n.id ∧ n.config.Lists p b.items
  edges : ∃ t, d.Unrolls (.withDefaults p) d.records t ∧
    ∀ level, c.graph.HasLevel level → ∀ n ∈ level.nodes, ∀ e ∈ level.edges, e.source = n.id →
      ∃ link ∈ d.capturedLinks (.withDefaults p) t, e = link.toEdge p n ∧
        ∀ k port, p.branchPort? n.kind k = some port → link.sourceHandle = some port →
          e.sourceHandle = if k < 2 ^ 64 then .case k else .raw port

/-- The position of a branch is the same in an export, in the node that is made of it, and
on the edges that leave the node by it, whatever the elements of the list are. -/
theorem ofJson_keepsPositions (hc : ofJson (.withDefaults p) exported = .ok c) :
    ∃ d, p.parseDocument exported = .ok d ∧ KeepsPositions p exported d c := by
  obtain ⟨d, hparse, hconverts⟩ := exists_parse_of_ofJson hc
  rw [Registry.Derived.defaults.platform_eq] at hparse
  have hg : (Registry.withDefaults p).UsesBuiltIns := Registry.Derived.defaults.usesBuiltIns
  obtain ⟨resolver, t, hresolver, ht, hmade⟩ := madeOf_of_ok hg hconverts
  refine ⟨d, hparse, fun r hr kind => Platform.lists_of_parseDocument hparse hr,
    ⟨resolver, hresolver, ?_⟩, t, ht, ?_⟩
  · intro n hn hbranching
    obtain ⟨level, hlevel, hmem⟩ := Graph.exists_level_of_mem_walk c.graph hn
    obtain ⟨place, r, own, part, present, hr, hown, hfinishes⟩ := (hmade level hlevel).nodes n hmem
    obtain ⟨b, hdeclares, hid, -, hlists⟩ :=
      exists_taggedList_of_finishes hparse hr hown hfinishes hbranching
    exact ⟨r, hr, ⟨place, own, part, present, hown, hfinishes⟩, b, hdeclares, hid, hlists⟩
  · intro level hlevel n hn e he hsource
    have hrules : level.KeepsLevelRules := keepsLevelRules_of_ok hconverts hlevel
    obtain ⟨link, hlink, m, hm, hid, rfl⟩ := (hmade level hlevel).edges e he
    obtain rfl : m = n := List.inj_on_of_nodup_map hrules.level.ids hm hn (hid.trans hsource)
    rw [Registry.Derived.defaults.platform_eq]
    refine ⟨link, hlink, rfl, fun k port hport hhandle => ?_⟩
    rw [Link.toEdge, hhandle]
    exact Handle.ofSpelling_branchPort? (hrules.nodes m hm).config hport

/-- A classifier whose list holds null, a plain text and an object without a name, a
condition with an odd branch, and edges that leave both of them by position. -/
def oddLists : Json :=
  .obj [("nodes", .arr
    [.obj [("id", .str "pick"), ("type", .str "22"), ("data", .obj [("inputs", .obj
      [("intents", .arr [.null, .str "plain", .obj [("name", .str "third")]])])])],
     .obj [("id", .str "test"), ("type", .nat 8), ("data", .obj [("inputs", .obj
      [("branches", .arr [.null, .obj [("condition", .obj [("logic", .nat 1)])]])])])],
     .obj [("id", .str "done"), ("type", .str "2")]]),
   ("edges", .arr
    [.obj [("sourceNodeID", .str "pick"), ("targetNodeID", .str "done"),
      ("sourcePortID", .str "branch_2")],
     .obj [("sourceNodeID", .str "test"), ("targetNodeID", .str "done"),
      ("sourcePortID", .str "true_1")]])]

theorem ofJson_keepsPositions_oddLists :
    ∃ c, ofJson (.withDefaults .coze) oddLists = .ok c ∧
      c.graph.edges.map Edge.sourceHandle = [.case 2, .case 1] ∧
      ((Platform.branchLists .coze oddLists).map fun b => (b.id, b.items.length)) =
        [("pick", 3), ("test", 2)] ∧
      ∃ d, Platform.coze.parseDocument oddLists = .ok d ∧ KeepsPositions .coze oddLists d c := by
  have hedges : (ofJson (.withDefaults .coze) oddLists).toOption.any (fun c =>
      c.graph.edges.map Edge.sourceHandle == [.case 2, .case 1]) = true := by decide +kernel
  obtain ⟨c, hc, hhandles⟩ := exists_ok_of_any hedges
  refine ⟨c, hc, by simpa using hhandles, by decide +kernel, ofJson_keepsPositions hc⟩

end Conversion

end WorkflowGraph
