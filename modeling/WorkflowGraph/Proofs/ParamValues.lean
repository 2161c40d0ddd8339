/-
# What the decoders read

The adapters build the parameters of a record out of texts, pointers, numbers and values
of the export, and the decoders read them. Here is what comes back: everything that was
put in, except that a number that is not finite has no notation and is lost.
-/

import WorkflowGraph.Proofs.JsonLayouts

namespace WorkflowGraph.Params

open Json (Layout)
open Json.Reader

/-! Single parameters. -/

theorem read_text?_ofText? (s : Option String) : text? (.ofText? s) = .ok s :=
  Layout.declared.restores_text? s

theorem read_text?_str (s : String) : text? (.str s) = .ok (some s) :=
  rfl

theorem read_pointer?_pointer (p : Option Pointer) : pointer? (Loose.pointer p) = .ok p := by
  cases p <;> rfl

theorem read_float_ofFloat (x : Option Binary64) :
    option float (.ofOption .ofFloat x) = .ok (x.filter Binary64.isFinite) := by
  cases x with
  | none => rfl
  | some x =>
      rw [Json.ofOption, Json.ofFloat, Option.filter_some]
      split
      · rfl
      · rfl

theorem read_list_map {α β : Type} {read : Json.Reader α} {write : β → Json} {view : β → α}
    (hread : ∀ b, read (write b) = .ok (view b)) (items : List β) :
    list read (.arr (items.map write)) = .ok (items.map view) := by
  rw [list]
  induction items with
  | nil => rfl
  | cons b items ih =>
      simp only [List.map_cons, all, hread, ih]
      rfl

theorem read_list_mapIdx {α β : Type} {read : Json.Reader α} {write : Nat → β → Json}
    {view : Nat → β → α} (hread : ∀ k b, read (write k b) = .ok (view k b)) (items : List β) :
    list read (.arr (items.mapIdx write)) = .ok (items.mapIdx view) := by
  rw [List.mapIdx_eq_zipIdx_map, List.mapIdx_eq_zipIdx_map]
  exact read_list_map (fun entry => hread entry.2 entry.1) items.zipIdx

/-- The greatest number of tokens as the parameters of a model keep it. -/
def tokens (x : Binary64) : UInt32 :=
  .ofNat (x.clampedInt 0 0xffffffff).toNat

theorem read_word32_tokens (x : Option Binary64) :
    option word32 (.ofOption (fun x => .num (.int (x.clampedInt 0 0xffffffff))) x) =
      .ok (x.map fun x => (x.clampedInt 0 0xffffffff).toNat) := by
  cases x with
  | none => rfl
  | some x =>
      obtain ⟨n, hn, hbound⟩ := exists_clampedInt_eq x
      have hword : word32 (.num (.int n)) = .ok n := if_pos hbound
      rw [Json.ofOption, hn, option, hword, Option.map_some, hn]
      · rfl
      · intro hnull
        cases hnull

/-! Each record of parameters comes back with its parts. -/

theorem read_model (provider name : Option String) (temperature maxTokens : Option Binary64) :
    model (Loose.model provider name temperature maxTokens) =
      .ok ⟨provider, name.getD "", temperature.filter Binary64.isFinite,
        maxTokens.map tokens⟩ := by
  have hprovider : Layout.declared.Restores text? (.ofText? provider) provider :=
    read_text?_ofText? provider
  have hname : Layout.declared.Restores text? (.str (name.getD "")) (some (name.getD "")) := rfl
  have htemperature : Layout.declared.Restores (option float) _ _ := read_float_ofFloat temperature
  have htokens : Layout.declared.Restores (option word32) _ _ := read_word32_tokens maxTokens
  refine Layout.StoresAll.read_object
    (.cons (hprovider.stores ..) <| .cons (hname.stores ..) <| .cons (htemperature.stores ..) <|
      .cons (htokens.stores ..) .nil)
    (by simp) (by simp [Layout.commute_iff]) ?_
  cases maxTokens <;> rfl

theorem read_operand (left : Option Pointer) (operator : String) (right : Json) :
    operand (.object [("left", Loose.pointer left), ("operator", .str operator),
      ("right", right)]) = .ok ⟨left, operator, right⟩ := by
  have hleft : Layout.declared.Restores pointer? _ _ := read_pointer?_pointer left
  have hoperator : Layout.declared.Restores text? _ _ := read_text?_str operator
  have hright : Layout.declared.Restores any right right := rfl
  exact Layout.StoresAll.read_object
    (.cons (hleft.stores ..) <| .cons (hoperator.stores ..) <| .cons (hright.stores ..) .nil)
    (by simp) (by simp [Layout.commute_iff]) rfl

theorem read_branch (id logic : String) {conditions : Json} {operands : List Operand}
    (hconditions : list operand conditions = .ok operands) :
    branch (.object [("id", .str id), ("logical_operator", .str logic),
      ("conditions", conditions)]) = .ok ⟨some id, some logic, operands⟩ := by
  have hid : Layout.declared.Restores text? _ _ := read_text?_str id
  have hlogic : Layout.declared.Restores text? _ _ := read_text?_str logic
  have hlist : Layout.declared.Restores (list operand) conditions operands := hconditions
  exact Layout.StoresAll.read_object
    (.cons (hid.stores ..) <| .cons (hlogic.stores ..) <| .cons (hlist.stores ..) .nil)
    (by simp) (by simp [Layout.commute_iff]) rfl

theorem read_condition {cases : Json} {branches : List Case}
    (hcases : list branch cases = .ok branches) :
    condition (.object [("cases", cases)]) = .ok branches := by
  have hlist : Layout.declared.Restores (list branch) cases branches := hcases
  exact Layout.StoresAll.read_object (.cons (hlist.stores ..) .nil) (by simp)
    (List.pairwise_singleton _ _) rfl

theorem read_classEntry {id name : Json} {id' name' : Option String} (hid : text? id = .ok id')
    (hname : text? name = .ok name') :
    classEntry (.object [("id", id), ("name", name)]) = .ok ⟨id', name'.getD ""⟩ := by
  have hid : Layout.declared.Restores text? id id' := hid
  have hname : Layout.declared.Restores text? name name' := hname
  exact Layout.StoresAll.read_object (.cons (hid.stores ..) <| .cons (hname.stores ..) .nil)
    (by simp) (by simp [Layout.commute_iff]) rfl

theorem read_classEntry_str (id name : String) :
    classEntry (.object [("id", .str id), ("name", .str name)]) = .ok ⟨some id, name⟩ :=
  read_classEntry (read_text?_str id) (read_text?_str name)

theorem read_classifier {m classes : Json} {model' : Model} {entries : List ClassEntry}
    (hmodel : model m = .ok model') (query : Option Pointer) (instruction : Option String)
    (hclasses : list classEntry classes = .ok entries) :
    classifier (.object [("model", m), ("query", Loose.pointer query),
      ("instruction", .ofText? instruction), ("classes", classes)]) =
        .ok ⟨model', query, instruction.filter fun s => !s.isEmpty, entries⟩ := by
  have hm : Layout.declared.Restores model m model' := hmodel
  have hquery : Layout.declared.Restores pointer? _ _ := read_pointer?_pointer query
  have hinstruction : Layout.declared.Restores text? _ _ := read_text?_ofText? instruction
  have hlist : Layout.declared.Restores (list classEntry) classes entries := hclasses
  exact Layout.StoresAll.read_object
    (.cons (hm.stores ..) <| .cons (hquery.stores ..) <| .cons (hinstruction.stores ..) <|
      .cons (hlist.stores ..) .nil)
    (by simp) (by simp [Layout.commute_iff]) rfl

end WorkflowGraph.Params
