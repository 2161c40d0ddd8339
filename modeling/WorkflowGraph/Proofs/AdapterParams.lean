/-
# Adapters and decoders agree

The adapters build the parameters of a record from an export whose free fields may hold
anything, and the decoders read them. For every tag in the table of a platform, the
adapter of that platform builds parameters of the shapes that the decoder of the library
for that tag accepts. So decoding never fails on a record that an adapter built, unless
its tag has no decoder at all.
-/

import WorkflowGraph.Proofs.ExportedNodes
import WorkflowGraph.Proofs.ParamReading

namespace WorkflowGraph

namespace Params

open Json.Reader

/-- The decoder for a kind of node can read the parameters. A start node has none. -/
def Readable : NodeKind → List (String × Json) → Prop
  | .start, _ => True
  | .finish, params => Accepts finish (.obj params)
  | .llm, params => Accepts llm (.obj params)
  | .code, params => Accepts code (.obj params)
  | .condition, params => Accepts condition (.obj params)
  | .classifier, params => Accepts classifier (.obj params)
  | .iteration, params => Accepts iteration (.obj params)

/-- Every parameter may be missing. -/
theorem readable_nil (kind : NodeKind) : Readable kind [] := by
  cases kind with
  | start => trivial
  | _ =>
      have hnone : Fields.ofList ([] : List (String × Json)) = [] := rfl
      rw [Readable, ← hnone]
      exact accepts_record (by simp) (by simp)

/-- What holds of every item at every position holds of every item made with positions. -/
theorem forall_mem_mapIdx {α β : Type} {make : Nat → α → β} {P : β → Prop} {items : List α}
    (hmake : ∀ index item, P (make index item)) : ∀ b ∈ items.mapIdx make, P b := by
  intro b hb
  obtain ⟨index, hindex, rfl⟩ := List.mem_mapIdx.mp hb
  exact hmake index _

theorem read_of_accepts {α : Type} {reader : Json.Reader α} {r : Record}
    (hreader : Accepts reader (.obj r.params)) : ∃ a, read reader r = .ok a := by
  obtain ⟨a, ha⟩ := hreader
  exact ⟨a, by rw [read, ha]; rfl⟩

end Params

/-- A record with readable parameters is decoded, whatever else is known about its
document. -/
theorem Decoder.exists_decode_builtIn {kind : NodeKind} {r : Record}
    (hreadable : Params.Readable kind r.params) (ctx : DecodeContext) :
    ∃ n, (builtIn kind).decode ctx r = .ok n := by
  cases kind with
  | start => exact ⟨_, rfl⟩
  | finish =>
      obtain ⟨a, ha⟩ := Params.read_of_accepts hreadable
      exact ⟨_, by simp only [builtIn, decodeFinish, ha]; rfl⟩
  | llm =>
      obtain ⟨a, ha⟩ := Params.read_of_accepts hreadable
      exact ⟨_, by simp only [builtIn, decodeLlm, ha]; rfl⟩
  | code =>
      obtain ⟨a, ha⟩ := Params.read_of_accepts hreadable
      exact ⟨_, by simp only [builtIn, decodeCode, ha]; rfl⟩
  | condition =>
      obtain ⟨a, ha⟩ := Params.read_of_accepts hreadable
      exact ⟨_, by simp only [builtIn, decodeCondition, ha]; rfl⟩
  | classifier =>
      obtain ⟨a, ha⟩ := Params.read_of_accepts hreadable
      exact ⟨_, by simp only [builtIn, decodeClassifier, ha]; rfl⟩
  | iteration =>
      obtain ⟨a, ha⟩ := Params.read_of_accepts hreadable
      exact ⟨_, by simp only [builtIn, decodeIteration, ha]; rfl⟩

/-- The decoder of the library for the tag of the record, if there is one, can read its
parameters. -/
def Platform.Adapts (p : Platform) (r : Record) : Prop :=
  ∀ kind, p.kindOfTag? r.tag = some kind → Params.Readable kind r.params

namespace Platform

variable {p : Platform} {r : Record}

/-- A record that is given readable settings, and has no others, is adapted. -/
theorem adapts_withParams {tag : String} {kind : NodeKind} {settings : List (String × Json)}
    (htag : r.tag = tag) (hkind : p.kindOfTag? tag = some kind) (hparams : r.params = [])
    (hreadable : Params.Readable kind (Fields.ofList settings)) :
    p.Adapts (r.withParams settings) := by
  intro other hother
  rw [show (r.withParams settings).tag = tag from htag, hkind] at hother
  obtain rfl := Option.some.inj hother
  rwa [Record.withParams, hparams]

/-- Outputs and inputs play no part in what the decoders read from parameters. -/
theorem Adapts.withOutput (hadapts : p.Adapts r) (name : String) (type : Option String) :
    p.Adapts (r.withOutput name type) :=
  hadapts

theorem Adapts.withInputs (hadapts : p.Adapts r) (inputs : List RecordInput)
    (outputs : List RecordOutput) : p.Adapts { r with inputs := inputs, outputs := outputs } :=
  hadapts

theorem adapts_of_params_eq_nil (hparams : r.params = []) : p.Adapts r :=
  fun kind _ => hparams ▸ Params.readable_nil kind

/-- A record with a tag of the platform is decoded in every context. -/
theorem Adapts.exists_decode (hadapts : p.Adapts r) (htag : (p.kindOfTag? r.tag).isSome)
    (ctx : DecodeContext) : ∃ n, (Registry.withDefaults p).decode ctx r = .ok n := by
  obtain ⟨kind, hkind⟩ := Option.isSome_iff_exists.mp htag
  obtain ⟨n, hn⟩ := Decoder.exists_decode_builtIn (hadapts kind hkind) ctx
  refine ⟨n, ?_⟩
  simp only [Registry.decode, Registry.decoder, Registry.get?_decoders_withDefaults, hkind]
  exact hn

end Platform

namespace Dify

open Params Json.Reader

theorem accepts_operand_condition (j : Json) : Accepts operand (condition j) :=
  accepts_operand (accepts_pointer?_pointer _) (accepts_text?_str _) _

theorem accepts_branch_branch (id : String) (logic conditions : Option Json) :
    Accepts Params.branch (branch id logic conditions) := by
  refine accepts_branch (accepts_text?_str _) (accepts_text?_str _) ?_
  exact List.forall_mem_map.mpr fun j _ => accepts_operand_condition j

theorem readable_branches (data : List (String × Json)) :
    Readable .condition (Fields.ofList [("cases", branches data)]) := by
  unfold branches
  split
  next =>
      refine accepts_condition (List.forall_mem_map.mpr fun j _ => ?_)
      exact accepts_branch_branch _ _ _
  next => exact accepts_condition (List.forall_mem_singleton.mpr (accepts_branch_branch _ _ _))

theorem accepts_classEntry_classLabel (j : Json) : Accepts classEntry (classLabel j) :=
  accepts_classEntry (accepts_text?_ofText? _) (accepts_text?_ofText? _)

theorem adapts_withSettings (data : List (String × Json)) {r : Record} (hparams : r.params = []) :
    Platform.dify.Adapts (withSettings data r) := by
  obtain ⟨id, tag, title, params, inputs, outputs, blocks, presentation⟩ := r
  obtain rfl : params = [] := hparams
  unfold withSettings
  extract_lets get text pointer
  split
  next => exact Platform.adapts_of_params_eq_nil rfl
  next => exact Platform.adapts_of_params_eq_nil rfl
  next htag =>
      exact Platform.adapts_withParams htag rfl rfl (accepts_finish (accepts_text?_ofText? _))
  next htag =>
      refine Platform.Adapts.withOutput ?_ _ _
      exact Platform.adapts_withParams htag rfl rfl (accepts_llm (accepts_model _ _ _ _)
        (accepts_text?_ofText? _) (accepts_text?_str _))
  next htag =>
      refine Platform.Adapts.withInputs ?_ _ _
      exact Platform.adapts_withParams htag rfl rfl (accepts_code (accepts_text?_ofText? _)
        (accepts_text?_ofText? _))
  next htag => exact Platform.adapts_withParams htag rfl rfl (readable_branches data)
  next htag =>
      refine Platform.Adapts.withOutput ?_ _ _
      exact Platform.adapts_withParams htag rfl rfl (accepts_classifier (accepts_model _ _ _ _)
        (accepts_pointer?_pointer _) (accepts_text?_ofText? _)
        (List.forall_mem_map.mpr fun j _ => accepts_classEntry_classLabel j))
  next htag =>
      have hstart : ∀ e ∈ [("start_node_id", text "start_node_id")],
          e.1 = "start_node_id" ∧ Accepts text? e.2 :=
        List.forall_mem_singleton.mpr ⟨rfl, accepts_text?_ofText? _⟩
      refine Platform.Adapts.withOutput ?_ _ _
      exact Platform.adapts_withParams htag rfl rfl (accepts_iteration (accepts_pointer?_pointer _)
        (accepts_pointer?_pointer _) (accepts_text?_ofText? _) _ hstart)
  next => exact Platform.adapts_of_params_eq_nil rfl

theorem adapts_toRecord (e : NodeEntry) : Platform.dify.Adapts e.toRecord :=
  adapts_withSettings e.data rfl

end Dify

namespace Coze

open Params Json.Reader

theorem accepts_operand_condition (j : Json) : Accepts operand (condition j) :=
  accepts_operand (accepts_pointer?_pointer _) (accepts_text?_str _) _

theorem accepts_branch_branch (index : Nat) (j : Json) :
    Accepts Params.branch (branch index j) := by
  refine accepts_branch (accepts_text?_str _) (accepts_text?_str _) ?_
  exact List.forall_mem_map.mpr fun j _ => accepts_operand_condition j

theorem accepts_classEntry_classLabel (index : Nat) (j : Json) :
    Accepts classEntry (classLabel index j) :=
  accepts_classEntry (accepts_text?_str _) (accepts_text?_str _)

theorem adapts_withSettings (data : List (String × Json)) {r : Record} (hparams : r.params = []) :
    Platform.coze.Adapts (withSettings data r) := by
  obtain ⟨id, tag, title, params, inputs, outputs, blocks, presentation⟩ := r
  obtain rfl : params = [] := hparams
  unfold withSettings
  extract_lets get settings setting
  split
  next htag =>
      exact Platform.adapts_withParams htag rfl rfl (accepts_finish (accepts_text?_ofText? _))
  next htag =>
      exact Platform.adapts_withParams htag rfl rfl (accepts_llm (accepts_model _ _ _ _)
        (accepts_text?_ofText? _) (accepts_text?_str _))
  next htag =>
      exact Platform.adapts_withParams htag rfl rfl (accepts_code (accepts_text?_str _)
        (accepts_text?_str _))
  next htag =>
      refine Platform.adapts_withParams htag rfl rfl (accepts_condition ?_)
      exact forall_mem_mapIdx fun index j => accepts_branch_branch index j
  next htag =>
      refine Platform.adapts_withParams htag rfl rfl (accepts_classifier (accepts_model _ _ _ _)
        (accepts_pointer?_pointer _) (accepts_text?_ofText? _) ?_)
      exact forall_mem_mapIdx fun index j => accepts_classEntry_classLabel index j
  next htag =>
      have hstart : ∀ e ∈ ([] : List (String × Json)),
          e.1 = "start_node_id" ∧ Accepts text? e.2 := nofun
      exact Platform.adapts_withParams htag rfl rfl (accepts_iteration (accepts_pointer?_pointer _)
        (accepts_pointer?_pointer _) (accepts_text?_ofText? _) _ hstart)
  next => exact Platform.adapts_of_params_eq_nil rfl

/-- The body of a loop does not change what its parameters are. -/
theorem adapts_toRecord (e : NodeEntry) : Platform.coze.Adapts e.toRecord := by
  have hhead : Platform.coze.Adapts e.head := adapts_withSettings e.data rfl
  obtain ⟨id, type, board, data, blocks, links⟩ := e
  rw [NodeEntry.toRecord]
  split
  · exact hhead
  · exact hhead

end Coze

namespace Bailian

open Params Json.Reader

theorem accepts_operand_condition (j : Json) : Accepts operand (condition j) :=
  accepts_operand (accepts_pointer?_pointer _) (accepts_text?_str _) _

theorem accepts_branch_branch (index : Nat) (j : Json) :
    Accepts Params.branch (branch index j) := by
  refine accepts_branch (accepts_text?_str _) (accepts_text?_str _) ?_
  exact List.forall_mem_map.mpr fun j _ => accepts_operand_condition j

theorem accepts_classEntry_classLabel (index : Nat) (j : Json) :
    Accepts classEntry (classLabel index j) := by
  unfold classLabel
  split
  · exact accepts_classEntry (accepts_text?_str _) (accepts_text?_str _)
  · exact accepts_classEntry (accepts_text?_str _) (accepts_text?_str _)

theorem adapts_withSettings (config : List (String × Json)) {r : Record}
    (hparams : r.params = []) : Platform.bailian.Adapts (withSettings config r) := by
  obtain ⟨id, tag, title, params, inputs, outputs, blocks, presentation⟩ := r
  obtain rfl : params = [] := hparams
  unfold withSettings
  extract_lets get text
  split
  next htag =>
      exact Platform.adapts_withParams htag rfl rfl (accepts_finish (accepts_text?_ofText? _))
  next htag =>
      exact Platform.adapts_withParams htag rfl rfl (accepts_llm (accepts_model _ _ _ _)
        (accepts_text?_ofText? _) (accepts_text?_str _))
  next htag =>
      exact Platform.adapts_withParams htag rfl rfl (accepts_code (accepts_text?_ofText? _)
        (accepts_text?_str _))
  next htag =>
      refine Platform.adapts_withParams htag rfl rfl (accepts_condition ?_)
      exact forall_mem_mapIdx fun index j => accepts_branch_branch index j
  next htag =>
      refine Platform.adapts_withParams htag rfl rfl (accepts_classifier (accepts_model _ _ _ _)
        (accepts_pointer?_pointer _) (accepts_text?_ofText? _) ?_)
      exact forall_mem_mapIdx fun index j => accepts_classEntry_classLabel index j
  next htag =>
      have hstart : ∀ e ∈ ([] : List (String × Json)),
          e.1 = "start_node_id" ∧ Accepts text? e.2 := nofun
      exact Platform.adapts_withParams htag rfl rfl (accepts_iteration (accepts_pointer?_pointer _)
        (accepts_pointer?_pointer _) (accepts_text?_ofText? _) _ hstart)
  next => exact Platform.adapts_of_params_eq_nil rfl

theorem adapts_toRecord (e : NodeEntry) : Platform.bailian.Adapts e.toRecord :=
  adapts_withSettings e.config rfl

end Bailian

/-- Whatever an export holds in its free fields, the records that are made of it have
readable parameters. -/
theorem Platform.adapts_of_parseDocument {p : Platform} {exported : Json} {d : Document}
    (hparse : p.parseDocument exported = .ok d) {r : Record} (hr : d.Holds r) :
    p.Adapts r := by
  have hreshape := reshape_of_parseDocument hparse
  cases p with
  | dify =>
      obtain ⟨e, -, rfl⟩ := Dify.exists_toRecord_of_parse hreshape hr
      exact Dify.adapts_toRecord e
  | coze =>
      obtain ⟨e, -, rfl⟩ := Coze.exists_toRecord_of_parse hreshape hr
      exact Coze.adapts_toRecord e
  | bailian =>
      obtain ⟨e, -, rfl⟩ := Bailian.exists_toRecord_of_parse hreshape hr
      exact Bailian.adapts_toRecord e

/-- Texts differ if the words that they begin with do. -/
theorem Text.ne_of_take_ne {a b s t : String} (n : Nat) (ha : n ≤ a.toList.length)
    (hb : n ≤ b.toList.length) (hstart : a.toList.take n ≠ b.toList.take n) : a ++ s ≠ b ++ t := by
  intro hsame
  apply hstart
  have htake := congrArg (fun s : String => s.toList.take n) hsame
  simpa only [String.toList_append, List.take_append_of_le_length ha,
    List.take_append_of_le_length hb] using htake

/-- Messages tell errors of different kinds apart by how they begin. -/
theorem DecodeError.message_notRegistered_ne (tag node reason : String) :
    (notRegistered tag).message ≠ (invalidParams node reason).message := by
  unfold message
  dsimp only
  rw [String.append_assoc, String.append_assoc, String.append_assoc]
  apply Text.ne_of_take_ne 3 <;> decide

theorem Harvest.orphanReason_ne (owner node reason : String) :
    orphanReason owner ≠ (DecodeError.invalidParams node reason).message := by
  unfold orphanReason DecodeError.message
  dsimp only
  rw [String.append_assoc, String.append_assoc, String.append_assoc]
  apply Text.ne_of_take_ne 1 <;> decide

/-- The finding says of a record that its parameters are invalid. -/
def Diagnostic.BlamesParams : Diagnostic → Prop
  | .unsupportedNode _ _ reason | .droppedBlock _ _ _ reason =>
    ∃ node why, reason = (DecodeError.invalidParams node why).message
  | _ => False

theorem Diagnostic.BlamesParams.isAboutRecord {found : Diagnostic} (hblames : found.BlamesParams) :
    found.isAboutRecord = true := by
  unfold BlamesParams at hblames
  split at hblames
  · rfl
  · rfl
  · exact hblames.elim

/-- Where the records of a document have readable parameters, a record can only lack a
decoder, and no finding blames its parameters. -/
theorem Explained.not_blamesParams {p : Platform} {d : Document}
    (hadapts : ∀ r, d.Holds r → p.Adapts r) {found : Diagnostic}
    (hfound : Explained (.withDefaults p) d found) : ¬ found.BlamesParams := by
  have hmessage : ∀ {r ctx e}, d.Holds r → (Registry.withDefaults p).decode ctx r = .error e →
      ∀ node why, e.message ≠ (DecodeError.invalidParams node why).message := by
    intro r ctx e hr hfails node why
    cases htag : p.kindOfTag? r.tag with
    | none =>
        have hmissing : (Registry.withDefaults p).decode ctx r = .error (.notRegistered r.tag) := by
          simp only [Registry.decode, Registry.decoder, Registry.get?_decoders_withDefaults, htag]
          rfl
        obtain rfl := Except.error.inj (hmissing.symm.trans hfails)
        exact DecodeError.message_notRegistered_ne r.tag node why
    | some kind =>
        obtain ⟨n, hn⟩ := (hadapts r hr).exists_decode (by simp [htag]) ctx
        cases hn.symm.trans hfails
  rintro hblames
  cases hfound with
  | replaced hr hfails =>
      obtain ⟨node, why, hsame⟩ := hblames
      exact hmessage hr hfails node why hsame
  | leftOut hr hfails =>
      obtain ⟨node, why, hsame⟩ := hblames
      exact hmessage hr hfails node why hsame
  | orphaned hr =>
      obtain ⟨node, why, hsame⟩ := hblames
      exact Harvest.orphanReason_ne _ node why hsame

namespace Conversion

/-- Every record of an export that carries a tag of the platform is decoded by the library,
in every context. So converting an export never fails on parameters, whatever values the
export holds. -/
theorem ofJson_never_blames_params (p : Platform) (exported : Json) :
    (∀ d, p.parseDocument exported = .ok d → ∀ r, d.Holds r → (p.kindOfTag? r.tag).isSome →
        ∀ ctx, ∃ n, (Registry.withDefaults p).decode ctx r = .ok n) ∧
      ∀ c, ofJson (.withDefaults p) exported = .ok c →
        ∀ found ∈ c.report.diagnostics, ¬ found.BlamesParams := by
  refine ⟨fun d hparse r hr htag ctx => ?_, fun c hc found hfound hblames => ?_⟩
  · exact (Platform.adapts_of_parseDocument hparse hr).exists_decode htag ctx
  · rw [ofJson, Registry.Derived.defaults.platform_eq] at hc
    cases hparse : p.parseDocument exported with
    | error e => simp [hparse] at hc
    | ok d =>
        rw [hparse] at hc
        have hexplained := ofDocument_explained hc hfound hblames.isAboutRecord
        exact hexplained.not_blamesParams (fun r => Platform.adapts_of_parseDocument hparse) hblames

/-- An export with a whole number for a model, a truth value for a prompt, and a node with
a tag that the platform does not have. -/
def oddFields : Json :=
  .obj [("nodes", .arr
    [.obj [("id", .str "a"), ("data", .obj [("type", .str "llm"), ("model", .nat 7),
      ("prompt_template", .bool true)])],
     .obj [("id", .str "b"), ("data", .obj [("type", .str "teleport")])]])]

theorem ofJson_never_blames_params_oddFields :
    (∃ d r, Platform.dify.parseDocument oddFields = .ok d ∧ d.Holds r ∧
        (Platform.dify.kindOfTag? r.tag).isSome ∧
          ∃ n, (Registry.withDefaults .dify).decode ⟨.dify, .empty, []⟩ r = .ok n) ∧
      ∃ c, ofJson (.withDefaults .dify) oddFields = .ok c ∧ c.report.diagnostics.length = 1 ∧
        ∀ found ∈ c.report.diagnostics, ¬ found.BlamesParams := by
  obtain ⟨hdecodes, hblames⟩ := ofJson_never_blames_params .dify oddFields
  refine ⟨?_, ?_⟩
  · have hknown : (Platform.dify.parseDocument oddFields).toOption.any (fun d =>
        d.records.any fun r => (Platform.dify.kindOfTag? r.tag).isSome) = true := by decide +kernel
    cases hparse : Platform.dify.parseDocument oddFields with
    | error e => simp [hparse, Except.toOption] at hknown
    | ok d =>
        obtain ⟨r, hr, htag⟩ : ∃ r ∈ d.records, (Platform.dify.kindOfTag? r.tag).isSome := by
          simpa [hparse, Except.toOption] using hknown
        exact ⟨d, r, rfl, .root (.here hr), htag, hdecodes d hparse r (.root (.here hr)) htag _⟩
  · have hone : (ofJson (.withDefaults .dify) oddFields).toOption.any (fun c =>
        c.report.diagnostics.length == 1) = true := by decide +kernel
    cases hc : ofJson (.withDefaults .dify) oddFields with
    | error e => simp [hc, Except.toOption] at hone
    | ok c => exact ⟨c, rfl, by simpa [hc, Except.toOption] using hone, hblames c hc⟩

end Conversion

end WorkflowGraph
