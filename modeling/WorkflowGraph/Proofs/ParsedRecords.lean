/-
# The records of an export

What holds of every record of an export that was read, wherever it stands: a record with
the tag of a loop becomes a loop, a loop-start node can be named only on platforms that
have such nodes, and on these a loop declares no output but the one of iteration nodes.
-/

import WorkflowGraph.Proofs.AdapterParams
import WorkflowGraph.Proofs.BlockLists
import WorkflowGraph.Proofs.CheckedDocuments
import WorkflowGraph.Proofs.RemovedDecoder
import WorkflowGraph.Proofs.SurveyedLoops

namespace WorkflowGraph

theorem Record.Within.mono {r : Record} {rs rs' : List Record} (hr : r.Within rs)
    (hsub : rs ⊆ rs') : r.Within rs' := by
  cases hr with
  | here hmem => exact .here (hsub hmem)
  | inside howner hblocks hwithin => exact .inside (hsub howner) hblocks hwithin

/-- In a list whose records pass the check, the records of all bodies pass it. -/
theorem Record.Within.passes {r : Record} {rs : List Record} (hr : r.Within rs)
    (hall : ∀ r ∈ rs, r.Passes) : r.Passes := by
  induction hr with
  | here hmem => exact hall _ hmem
  | @inside rs owner body howner hblocks _ ih =>
      obtain ⟨records, links⟩ := body
      have hbody := (hall _ howner).blocks
      rw [hblocks, Blocks.checkOption] at hbody
      exact ih (Record.checkAll_eq_ok_iff.mp hbody)

namespace Document

variable {d : Document}

theorem passes_of_holds (hcheck : d.check = .ok ()) {r : Record} (hr : d.Holds r) :
    r.Passes := by
  obtain ⟨hroot, hsections⟩ := check_eq_ok_iff.mp hcheck
  cases hr with
  | root hwithin => exact hwithin.passes (Record.checkAll_eq_ok_iff.mp hroot)
  | nested hentry hwithin =>
      exact hwithin.passes (Record.checkAll_eq_ok_iff.mp (hsections _ hentry))

mutual
/-- What stands in a body below a list stands in the list, at some depth. -/
theorem within_of_mem_bodies {entry : String × Blocks} {r : Record} (hr : r ∈ entry.2.records) :
    (rs : List Record) → entry ∈ Record.bodies rs → r.Within rs
  | [], h => by
    rw [Record.bodies] at h
    cases h
  | ⟨id, tag, title, params, inputs, outputs, blocks, presentation⟩ :: rs, h => by
    rw [Record.bodies] at h
    rcases List.mem_append.mp h with hhere | hlater
    · obtain ⟨body, rfl, hwithin⟩ := within_of_mem_option hr id blocks hhere
      exact .inside List.mem_cons_self rfl hwithin
    · exact (within_of_mem_bodies hr rs hlater).mono (List.subset_cons_self _ _)

theorem within_of_mem_option {entry : String × Blocks} {r : Record} (hr : r ∈ entry.2.records)
    (owner : String) : (blocks : Option Blocks) → entry ∈ Blocks.bodies owner blocks →
      ∃ body, blocks = some body ∧ r.Within body.records
  | none, h => by
    rw [Blocks.bodies] at h
    cases h
  | some ⟨records, links⟩, h => by
    rw [Blocks.bodies] at h
    refine ⟨_, rfl, ?_⟩
    rcases List.mem_cons.mp h with rfl | hinside
    · exact .here hr
    · exact within_of_mem_bodies hr records hinside
end

theorem holds_of_mem_allRecords {r : Record} (hr : r ∈ d.allRecords) : d.Holds r := by
  obtain ⟨list, hlist, hmem⟩ := List.mem_flatMap.mp hr
  rcases List.mem_cons.mp hlist with rfl | hbody
  · exact .root (.here hmem)
  · obtain ⟨entry, hentry, rfl⟩ := List.mem_map.mp hbody
    rcases List.mem_append.mp hentry with hroot | hsection
    · exact .root (within_of_mem_bodies hmem _ hroot)
    · obtain ⟨own, hown, hbelow⟩ := List.mem_flatMap.mp hsection
      obtain ⟨body, hsame, hwithin⟩ := within_of_mem_option hmem own.1 _ hbelow
      obtain rfl := Option.some.inj hsame
      exact .nested hown hwithin

end Document

/-- Settings that say nothing of a loop-start node name none. -/
theorem Record.startNode?_withParams {r : Record} {settings : List (String × Json)}
    (hparams : r.params = []) (hsettings : "start_node_id" ∉ settings.map Prod.fst) :
    (r.withParams settings).startNode? = none := by
  have hnone : Fields.get? "start_node_id" (Fields.ofList settings) = none := by
    refine List.foldlRecOn settings _
      (motive := fun t : Fields Json => Fields.get? "start_node_id" t = none) rfl
      fun t ht e he => ?_
    have hname : e.1 ≠ "start_node_id" := fun hname =>
      hsettings (hname ▸ List.mem_map_of_mem he)
    rw [Fields.get?_insert, if_neg hname, ht]
  rw [Record.startNode?, Record.param?, Record.withParams, hparams]
  exact congrArg (Option.bind · Json.str?) hnone

namespace Dify

theorem tag_of_kindOfTag? {tag : String} (hkind : Platform.dify.kindOfTag? tag = some .iteration) :
    tag = "iteration" := by
  have htags : ∀ entry ∈ Platform.dify.nodeTags, entry.2 = .iteration → entry.1 = "iteration" := by
    decide
  exact htags _ (Registry.mem_nodeTags_of_kindOfTag? hkind) rfl

/-- A loop declares no output but the one that iteration nodes have. -/
theorem outputs_withSettings (data : List (String × Json)) {r : Record} (houtputs : r.outputs = [])
    (htag : r.tag = "iteration") :
    ∀ o ∈ (withSettings data r).outputs, o.name = iterationOutput := by
  unfold withSettings
  extract_lets get text pointer
  rw [htag]
  simp [Record.withOutput, Record.withParams, houtputs, iterationOutput]

end Dify

namespace Coze

theorem startNode?_withSettings (data : List (String × Json)) {r : Record}
    (hparams : r.params = []) : (withSettings data r).startNode? = none := by
  unfold withSettings
  extract_lets get settings setting
  split
  case h_7 => rw [Record.startNode?, Record.param?, hparams]; rfl
  all_goals exact Record.startNode?_withParams hparams (by simp)

theorem startNode?_toRecord (e : NodeEntry) : e.toRecord.startNode? = none := by
  have hhead : e.head.startNode? = none := startNode?_withSettings e.data rfl
  obtain ⟨id, type, board, data, blocks, links⟩ := e
  rw [NodeEntry.toRecord]
  split
  · exact hhead
  · exact hhead

end Coze

namespace Bailian

theorem startNode?_withSettings (config : List (String × Json)) {r : Record}
    (hparams : r.params = []) : (withSettings config r).startNode? = none := by
  unfold withSettings
  extract_lets get text
  split
  case h_7 => rw [Record.startNode?, Record.param?, hparams]; rfl
  all_goals exact Record.startNode?_withParams hparams (by simp)

theorem startNode?_toRecord (e : NodeEntry) : e.toRecord.startNode? = none :=
  startNode?_withSettings e.config rfl

end Bailian

namespace Platform

variable {p : Platform} {exported : Json} {d : Document} {r : Record}

/-- A record with the tag of a loop becomes a loop, and is surveyed as one on every level. -/
theorem iterates_eq_isLoop (hparse : p.parseDocument exported = .ok d) (hr : d.Holds r)
    (level : Level) : (Registry.withDefaults p).iterates level r =
      (Registry.withDefaults p).isLoop r := by
  have hg := Registry.Derived.defaults (p := p).usesBuiltIns
  rw [Bool.eq_iff_iff]
  refine ⟨fun hiterates => ?_, fun hloop => ?_⟩
  · simp only [Registry.iterates, Bool.and_eq_true, beq_iff_eq] at hiterates
    have hkind := hiterates.1
    rw [Registry.kind?_withDefaults] at hkind
    obtain ⟨n, hn⟩ := (adapts_of_parseDocument hparse hr).exists_decode (by simp [hkind])
      ⟨(Registry.withDefaults p).platform, .empty, []⟩
    have hface : (Registry.withDefaults p).face? r = some n.face := by
      simp [Registry.face?, hn]
    have hsame := hiterates.1.symm.trans (Registry.decode_of_face?_eq_some hg hface).2.1
    refine Registry.isLoop_iff.mpr ⟨?_, n.face, hface, (Option.some.inj hsame).symm⟩
    rw [Registry.Derived.defaults.platform_eq]
    exact Registry.isPseudoTag_of_kind? hiterates.1
  · have hkind := Registry.kind?_of_isLoop hg hloop
    simp [Registry.iterates, hkind, (Registry.isLoop_iff.mp hloop).1]

/-- On platforms without loop-start nodes, none can be named. -/
theorem startNode?_of_parseDocument (hparse : p.parseDocument exported = .ok d)
    (hr : d.Holds r) (hpseudo : p.pseudoTag? = none) : r.startNode? = none := by
  have hreshape := reshape_of_parseDocument hparse
  cases p with
  | dify => cases hpseudo
  | coze =>
      obtain ⟨e, -, rfl⟩ := Coze.exists_toRecord_of_parse hreshape hr
      exact Coze.startNode?_toRecord e
  | bailian =>
      obtain ⟨e, -, rfl⟩ := Bailian.exists_toRecord_of_parse hreshape hr
      exact Bailian.startNode?_toRecord e

/-- On platforms with loop-start nodes, a loop declares no output but the one that iteration
nodes have. -/
theorem outputs_of_parseDocument (hparse : p.parseDocument exported = .ok d) (hr : d.Holds r)
    (hpseudo : p.pseudoTag?.isSome = true)
    (hkind : (Registry.withDefaults p).kind? r.tag = some .iteration) :
    ∀ o ∈ r.outputs, o.name = iterationOutput := by
  rw [Registry.kind?_withDefaults] at hkind
  have hreshape := reshape_of_parseDocument hparse
  cases p with
  | coze => cases hpseudo
  | bailian => cases hpseudo
  | dify =>
      obtain ⟨e, -, rfl⟩ := Dify.exists_toRecord_of_parse hreshape hr
      refine Dify.outputs_withSettings e.data rfl ?_
      have htag := Dify.tag_of_kindOfTag? hkind
      rwa [Dify.tag_toRecord] at htag

end Platform

/-- The conversion of an export is that of its document. -/
theorem Conversion.ofDocument_of_ofJson {p : Platform} {exported : Json} {d : Document}
    {c : Conversion} (hparse : p.parseDocument exported = .ok d)
    (hc : ofJson (.withDefaults p) exported = .ok c) :
    ofDocument (.withDefaults p) d = .ok c := by
  rwa [ofJson, Registry.Derived.defaults.platform_eq, hparse] at hc

end WorkflowGraph
