/-
# Cut artifacts

An artifact that lost bytes at its end is never taken for another one. Every reader
goes through its bytes from left to right and decides on each value before it sees what
follows, so whatever it finds in a part it finds in the whole and leaves the missing
bytes over. But the whole leaves nothing over. Readers of nested values see a smaller
bound on the depth in the part than in the whole; a larger bound changes no result.
-/

import WorkflowGraph.Proofs.RoundTrip

namespace WorkflowGraph

open Codec

namespace Codec

/-! ## Records -/

theorem extends_literalWithin {n m : Nat} (h : n ≤ m) :
    Extends (decodeLiteralWithin n) (decodeLiteralWithin m) := by
  induction n generalizing m with
  | zero => exact extends_fail _
  | succ n ih =>
    obtain ⟨m, rfl⟩ : ∃ k, m = k + 1 := ⟨m - 1, by omega⟩
    have inner : Extends (decodeLiteralWithin n) (decodeLiteralWithin m) := ih (by omega)
    refine extends_index.bind fun position => ?_
    split
    · exact extends_pure _
    · exact extends_bool.map _
    · exact extends_float.map _
    · exact extends_text.map _
    · exact inner.list.map _
    · exact (extends_text.bind fun k => inner.map (k, ·)).list.map _
    · exact extends_fail _

theorem extends_literal : Extends decodeLiteral decodeLiteral := by
  intro bytes l rest h tail
  refine extends_literalWithin ?_ h tail
  rw [List.length_append]
  omega

theorem extends_varType : Extends decodeVarType decodeVarType := extends_among VarType.all

theorem extends_nodeKind : Extends decodeNodeKind decodeNodeKind := extends_among NodeKind.all

theorem extends_handle : Extends decodeHandle decodeHandle := by
  refine extends_index.bind fun position => ?_
  split
  · exact extends_pure _
  · exact extends_length.map _
  · exact extends_pure _
  · exact extends_text.map _
  · exact extends_fail _

theorem extends_edge : Extends decodeEdge decodeEdge := by
  refine extends_text.bind fun id => ?_
  refine extends_text.bind fun source => ?_
  refine extends_handle.bind fun sourceHandle => ?_
  refine extends_text.bind fun target => ?_
  refine extends_text.bind fun targetHandle => ?_
  exact (extends_among edgeKinds).map _

theorem extends_reference : Extends decodeReference decodeReference := by
  refine extends_text.bind fun node => ?_
  refine extends_text.bind fun output => ?_
  exact extends_varType.map _

theorem extends_inputValue : Extends decodeInputValue decodeInputValue := by
  refine extends_index.bind fun position => ?_
  split
  · exact extends_reference.map _
  · exact extends_literal.map _
  · exact extends_fail _

theorem extends_input : Extends decodeInput decodeInput := by
  refine extends_text.bind fun name => ?_
  refine extends_varType.bind fun type => ?_
  exact extends_inputValue.map _

theorem extends_output : Extends decodeOutput decodeOutput := by
  refine extends_text.bind fun name => ?_
  exact extends_varType.map _

theorem extends_position : Extends decodePosition decodePosition := by
  refine extends_float.bind fun x => ?_
  exact extends_float.map _

theorem extends_presentation : Extends decodePresentation decodePresentation := by
  refine extends_position.option.bind fun position => ?_
  exact extends_text.option.map _

theorem extends_model : Extends decodeModel decodeModel := by
  refine extends_text.option.bind fun provider => ?_
  refine extends_text.bind fun name => ?_
  refine extends_float.option.bind fun temperature => ?_
  exact extends_index.option.map _

theorem extends_language : Extends decodeLanguage decodeLanguage := by
  refine extends_index.bind fun position => ?_
  split
  · exact extends_pure _
  · exact extends_pure _
  · exact extends_text.map _
  · exact extends_fail _

theorem extends_condition : Extends decodeCondition decodeCondition := by
  refine extends_reference.option.bind fun left => ?_
  refine extends_text.bind fun operator => ?_
  exact extends_literal.map _

theorem extends_branchCase : Extends decodeBranchCase decodeBranchCase := by
  refine extends_text.bind fun id => ?_
  refine (extends_among logicalOperators).bind fun logicalOperator => ?_
  exact extends_condition.list.map _

theorem extends_classLabel : Extends decodeClassLabel decodeClassLabel := by
  refine extends_text.bind fun id => ?_
  exact extends_text.map _

theorem extends_classifier : Extends decodeClassifier decodeClassifier := by
  refine extends_model.bind fun model => ?_
  refine extends_reference.option.bind fun query => ?_
  refine extends_text.option.bind fun instruction => ?_
  exact extends_classLabel.list.map _

theorem extends_llm : Extends decodeLlm decodeLlm := by
  refine extends_model.bind fun model => ?_
  refine extends_text.option.bind fun systemPrompt => ?_
  exact extends_text.map _

theorem extends_code : Extends decodeCode decodeCode := by
  refine extends_language.bind fun language => ?_
  exact extends_text.map _

/-! ## Graphs -/

section
variable {body body' : Decode Graph}

theorem Extends.loop (h : Extends body body') : Extends (decodeLoop body) (decodeLoop body') := by
  refine extends_reference.option.bind fun iterator => ?_
  refine extends_reference.option.bind fun output => ?_
  refine extends_varType.bind fun outputType => ?_
  refine extends_bool.bind fun parallel => ?_
  refine extends_edge.list.bind fun entryEdges => ?_
  exact h.map _

theorem Extends.config (h : Extends body body') :
    Extends (decodeConfig body) (decodeConfig body') := by
  refine extends_index.bind fun position => ?_
  split
  · exact extends_pure _
  · exact extends_text.option.map _
  · exact extends_llm.map _
  · exact extends_code.map _
  · exact extends_branchCase.list.map _
  · exact extends_classifier.map _
  · exact h.loop.map _
  · exact extends_fail _

theorem Extends.node (h : Extends body body') : Extends (decodeNode body) (decodeNode body') := by
  refine extends_text.bind fun id => ?_
  refine extends_nodeKind.bind fun kind => ?_
  refine extends_text.bind fun title => ?_
  refine h.config.bind fun config => ?_
  refine extends_input.list.bind fun inputs => ?_
  refine extends_output.list.bind fun outputs => ?_
  exact extends_presentation.map _

end

theorem extends_graphWithin {n m : Nat} (h : n ≤ m) :
    Extends (decodeGraphWithin n) (decodeGraphWithin m) := by
  induction n generalizing m with
  | zero => exact extends_fail _
  | succ n ih =>
    obtain ⟨m, rfl⟩ : ∃ k, m = k + 1 := ⟨m - 1, by omega⟩
    have inner : Extends (decodeGraphWithin n) (decodeGraphWithin m) := ih (by omega)
    refine inner.node.list.bind fun nodes => ?_
    exact extends_edge.list.map _

theorem extends_graph : Extends decodeGraph decodeGraph := by
  intro bytes g rest h tail
  refine extends_graphWithin ?_ h tail
  rw [List.length_append]
  omega

end Codec

/-! ## Artifacts -/

namespace Artifact

theorem extends_decoder : Extends decoder decoder := by
  refine (extends_among Platform.all).bind fun source => ?_
  exact extends_graph.map _

/-- The bytes of an artifact that end early, wherever they end, are refused. -/
theorem decode_eq_error_of_prefix {a : Artifact} (h : a.Fits) {front : Bytes}
    (cut : front <+: a.toBytes) (proper : front ≠ a.toBytes) : decode front = .error .decode := by
  have refused : decoder front = none :=
    extends_decoder.eq_none_of_prefix (reads_toBytes h) cut proper
  rw [decode, ofBytes?_eq, refused]
  rfl

theorem toBytes_ne_nil (a : Artifact) : a.toBytes ≠ [] := by
  intro h
  exact encodeNat_ne_nil _ (List.append_eq_nil_iff.mp h).1

theorem dropLast_toBytes_ne (a : Artifact) : a.toBytes.dropLast ≠ a.toBytes := by
  intro same
  have length := congrArg List.length same
  have positive := List.length_pos_iff.mpr a.toBytes_ne_nil
  rw [List.length_dropLast] at length
  omega

/-- Without its last byte, and without any byte at all. -/
theorem decode_dropLast_loopOverModel :
    loopOverModel.Fits ∧ decode loopOverModel.toBytes.dropLast = .error .decode ∧
      decode [] = .error .decode :=
  ⟨fits_loopOverModel,
    decode_eq_error_of_prefix fits_loopOverModel (List.dropLast_prefix _) (dropLast_toBytes_ne _),
    decode_eq_error_of_prefix fits_loopOverModel List.nil_prefix (toBytes_ne_nil _).symm⟩

end Artifact

end WorkflowGraph
