/-
# Values of nodes that can be written

The decoders read bounded parameters to settings without infinite numbers, and what happens
to a node afterwards, when its dangling references are left out and it is given a body,
adds no number to it. The edges that leave it select branches at positions that fit in a
machine word: a platform either spells the position, or counts the branches of a list.
-/

import WorkflowGraph.Proofs.AssembledLevels
import WorkflowGraph.Proofs.BoundedRecords
import WorkflowGraph.Proofs.HandleSpelling
import WorkflowGraph.Proofs.JsonRoundTrip

namespace WorkflowGraph

open Json.Reader

namespace Literal

mutual
theorem isWritable_ofJson : (j : Json) → j.isBounded = true → (ofJson j).isWritable = true
  | .null, _ | .bool _, _ | .str _, _ => by
      simp [ofJson, isWritable]
  | .num n, hn => by
      rw [Json.isBounded] at hn
      rw [ofJson, isWritable]
      exact n.isFinite_toFloat hn
  | .arr items, hitems => by
      rw [Json.isBounded, Bool.and_eq_true] at hitems
      rw [ofJson, isWritable]
      exact itemsWritable_ofItems items hitems.2
  | .obj fields, hfields => by
      rw [Json.isBounded] at hfields
      rw [ofJson, isWritable]
      exact fieldsWritable_ofFields fields hfields

theorem itemsWritable_ofItems : (items : List Json) → Json.itemsBounded items = true →
    itemsWritable (ofItems items) = true
  | [], _ => by
      rw [ofItems, itemsWritable]
  | j :: items, hitems => by
      rw [Json.itemsBounded, Bool.and_eq_true] at hitems
      rw [ofItems, itemsWritable, isWritable_ofJson j hitems.1,
        itemsWritable_ofItems items hitems.2, Bool.and_self]

theorem fieldsWritable_ofFields : (fields : List (String × Json)) →
    Json.fieldsBounded fields = true → fieldsWritable (ofFields fields) = true
  | [], _ => by
      rw [ofFields, fieldsWritable]
  | (key, j) :: fields, hfields => by
      rw [Json.fieldsBounded, Bool.and_eq_true] at hfields
      rw [ofFields, fieldsWritable, isWritable_ofJson j hfields.1,
        fieldsWritable_ofFields fields hfields.2, Bool.and_self]
end

end Literal

/-! ## Parameters -/

namespace Params

theorem yields_model : Yields model fun m => m.isWritable = true := by
  refine yields_record rfl ?_
  iterate 3 rw [List.forall_mem_cons]
  rw [List.forall_mem_singleton]
  refine ⟨Field.keeps_of_put _ fun _ _ hm => hm, Field.keeps_of_put _ fun _ _ hm => hm,
    Field.keeps_ofReader yields_float.option fun x? _ hx _ => ?_,
    Field.keeps_of_put _ fun _ _ hm => hm⟩
  cases x? with
  | none => rfl
  | some x => exact hx x rfl

theorem yields_llm : Yields llm fun c => c.model.isWritable = true := by
  refine yields_record rfl ?_
  rw [List.forall_mem_cons, List.forall_mem_cons, List.forall_mem_singleton]
  exact ⟨Field.keeps_ofReader yields_model fun _ _ hm _ => hm,
    Field.keeps_of_put _ fun _ _ hc => hc, Field.keeps_of_put _ fun _ _ hc => hc⟩

theorem yields_operand : Yields operand fun o => o.right.isBounded = true := by
  refine yields_record Json.isBounded_null ?_
  rw [List.forall_mem_cons, List.forall_mem_cons, List.forall_mem_singleton]
  exact ⟨Field.keeps_of_put _ fun _ _ ho => ho, Field.keeps_of_put _ fun _ _ ho => ho,
    Field.keeps_ofReader yields_any fun _ _ hright _ => hright⟩

theorem yields_branch : Yields branch fun c => ∀ o ∈ c.conditions, o.right.isBounded = true := by
  refine yields_record nofun ?_
  rw [List.forall_mem_cons, List.forall_mem_cons, List.forall_mem_singleton]
  exact ⟨Field.keeps_of_put _ fun _ _ hc => hc, Field.keeps_of_put _ fun _ _ hc => hc,
    Field.keeps_ofReader yields_operand.list fun _ _ hconditions _ => hconditions.2⟩

theorem yields_condition : Yields condition fun cases => cases.length < 2 ^ 64 ∧
    ∀ c ∈ cases, ∀ o ∈ c.conditions, o.right.isBounded = true := by
  refine yields_record ⟨Nat.two_pow_pos 64, nofun⟩ ?_
  rw [List.forall_mem_singleton]
  exact Field.keeps_ofReader yields_branch.list fun _ _ hcases _ => hcases

theorem yields_classifier : Yields classifier fun c =>
    c.model.isWritable = true ∧ c.classes.length < 2 ^ 64 := by
  refine yields_record ⟨rfl, Nat.two_pow_pos 64⟩ ?_
  iterate 3 rw [List.forall_mem_cons]
  rw [List.forall_mem_singleton]
  exact ⟨Field.keeps_ofReader yields_model fun _ _ hm hc => ⟨hm, hc.2⟩,
    Field.keeps_of_put _ fun _ _ hc => hc, Field.keeps_of_put _ fun _ _ hc => hc,
    Field.keeps_ofReader (yields_true classEntry).list fun _ _ hlist hc => ⟨hc.1, hlist.1⟩⟩

theorem holds_of_read {α : Type} {reader : Json.Reader α} {P : α → Prop}
    (hreader : Yields reader P) {r : Record} (hr : r.IsBounded) {a : α}
    (hread : read reader r = .ok a) : P a := by
  unfold read at hread
  cases hok : reader (.obj r.params) with
  | error e =>
      rw [hok] at hread
      cases hread
  | ok found =>
      rw [hok] at hread
      obtain rfl := Except.ok.inj hread
      exact hreader _ _ ((Json.isBounded_obj _).mpr hr.params) hok

end Params

/-! ## Nodes -/

/-- The settings can be written apart from a body, and the positions of their branches fit
in 64 bits. -/
def Config.HoldsFinite : Config → Prop
  | .llm c => c.model.isWritable = true
  | .condition cases => cases.length < 2 ^ 64 ∧ ∀ c ∈ cases, c.isWritable = true
  | .classifier c => c.model.isWritable = true ∧ c.classes.length < 2 ^ 64
  | _ => True

/-- The inputs and the settings of a node can be written, apart from a body. -/
structure Node.HoldsFinite (n : Node) : Prop where
  inputs : ∀ i ∈ n.inputs, i.isWritable = true
  config : n.config.HoldsFinite

namespace Decoder

variable {ctx : DecodeContext} {r : Record} {n : Node}

theorem isWritable_input {i : RecordInput} (hi : i.IsBounded) :
    (ctx.input i).isWritable = true := by
  obtain ⟨name, type, value⟩ := i
  cases value with
  | pointer p => rfl
  | literal j => exact Literal.isWritable_ofJson j (hi j rfl)

theorem isWritable_inputs (hr : r.IsBounded) :
    ∀ i ∈ r.inputs.map ctx.input, i.isWritable = true :=
  List.forall_mem_map.mpr fun i hi => isWritable_input (hr.inputs i hi)

theorem holdsFinite_node (hr : r.IsBounded) {config : Config} (hconfig : config.HoldsFinite) :
    (ctx.node r config).HoldsFinite :=
  ⟨isWritable_inputs hr, hconfig⟩

theorem holdsFinite_withDefaultOutput {name : String} (hn : n.HoldsFinite) :
    (withDefaultOutput name n).HoldsFinite := by
  unfold withDefaultOutput
  split
  · exact ⟨hn.inputs, hn.config⟩
  · exact hn

theorem isWritable_branchCase {index : Nat} {c : Params.Case}
    (hc : ∀ o ∈ c.conditions, o.right.isBounded = true) :
    (branchCase ctx index c).isWritable = true :=
  List.all_eq_true.mpr (List.forall_mem_map.mpr fun o ho => Literal.isWritable_ofJson _ (hc o ho))

/-- Every decoder of the library makes a node of finite values of bounded parameters. -/
theorem holdsFinite_builtIn (kind : NodeKind) (hr : r.IsBounded)
    (hn : (builtIn kind).decode ctx r = .ok n) : n.HoldsFinite := by
  cases kind with
  | start =>
      obtain rfl := Except.ok.inj hn
      exact holdsFinite_node hr trivial
  | finish =>
      obtain ⟨answer, -, rfl⟩ := exists_read_of_ok hn
      exact ⟨fun i hi => isWritable_inputs hr i (List.mem_filter.mp hi).1, trivial⟩
  | llm =>
      obtain ⟨config, hread, rfl⟩ := exists_read_of_ok hn
      exact holdsFinite_withDefaultOutput
        (holdsFinite_node hr (Params.holds_of_read Params.yields_llm hr hread))
  | code =>
      obtain ⟨config, -, rfl⟩ := exists_read_of_ok hn
      exact holdsFinite_node hr trivial
  | condition =>
      obtain ⟨cases, hread, rfl⟩ := exists_read_of_ok hn
      obtain ⟨hsmall, hcases⟩ := Params.holds_of_read Params.yields_condition hr hread
      refine holdsFinite_node hr ⟨by rwa [List.length_mapIdx], fun c hc => ?_⟩
      obtain ⟨k, hk, rfl⟩ := List.mem_mapIdx.mp hc
      exact isWritable_branchCase (hcases _ (List.getElem_mem hk))
  | classifier =>
      obtain ⟨c, hread, rfl⟩ := exists_read_of_ok hn
      obtain ⟨hmodel, hsmall⟩ := Params.holds_of_read Params.yields_classifier hr hread
      exact holdsFinite_withDefaultOutput
        (holdsFinite_node hr ⟨hmodel, by rwa [List.length_mapIdx]⟩)
  | iteration =>
      obtain ⟨p, -, rfl⟩ := exists_read_of_ok hn
      exact ⟨isWritable_inputs hr, trivial⟩

end Decoder

theorem Config.HoldsFinite.clean {config : Config} (hconfig : config.HoldsFinite)
    (present : List String) : (Dangling.cleanConfig present config).HoldsFinite := by
  cases config with
  | condition cases =>
      refine ⟨by rw [List.length_map]; exact hconfig.1, List.forall_mem_map.mpr fun c hc => ?_⟩
      refine List.all_eq_true.mpr (List.forall_mem_map.mpr fun k hk => ?_)
      exact List.all_eq_true.mp (hconfig.2 c hc) k hk
  | _ => exact hconfig

namespace Node.HoldsFinite

variable {n : Node}

theorem clean (hn : n.HoldsFinite) (present : List String) :
    (Dangling.cleanNode present n).HoldsFinite where
  inputs i hi := hn.inputs i (List.mem_filter.mp hi).1
  config := hn.config.clean present

theorem withBody (hn : n.HoldsFinite) (part : EdgePartition) (body : Graph) :
    (n.withBody part body).HoldsFinite where
  inputs := by
    rw [inputs_withBody]
    exact hn.inputs
  config := by
    obtain ⟨id, kind, title, config, inputs, outputs, presentation⟩ := n
    cases config with
    | iteration loop => trivial
    | _ => exact hn.config

/-- What is left of a node of finite values when it is finished is one, too. -/
theorem finishes {own : Node} (hown : own.HoldsFinite) {part : EdgePartition}
    {present : List String} (hn : own.Finishes part present n) : n.HoldsFinite := by
  rcases hn with rfl | ⟨body, rfl⟩
  · exact hown.clean present
  · exact (hown.clean present).withBody part body

end Node.HoldsFinite

/-- A bounded record becomes a node of finite values, decoded or not. -/
theorem Lift.Becomes.holdsFinite {g : Registry} (hg : g.UsesBuiltIns) {resolver : Resolver}
    {place : Level} {r : Record} {n : Node} (hn : Becomes g resolver place r n)
    (hr : r.IsBounded) : n.HoldsFinite := by
  cases hface : g.face? r with
  | none =>
      obtain ⟨-, rfl⟩ := hn.eq_placeholder hg hface
      exact ⟨nofun, trivial⟩
  | some face =>
      obtain ⟨removed, hdecode⟩ := hn.exists_decode hg (by rw [hface]; rfl)
      obtain ⟨kind, hbuiltIn⟩ := Registry.exists_builtIn_of_decode hg hdecode
      exact Decoder.holdsFinite_builtIn kind hr hbuiltIn

/-! ## Edges -/

namespace Handle

theorem lt_of_index? {digits : List Char} {k : Nat} (hk : index? digits = some k) :
    k < 2 ^ 64 := by
  unfold index? at hk
  split at hk
  · cases hk
  · split at hk
    · cases hk
    · dsimp only at hk
      split at hk
      next hsmall =>
          obtain rfl := Option.some.inj hk
          exact hsmall
      next => cases hk

theorem lt_of_indexAfter? {word spelling : String} {k : Nat}
    (hk : indexAfter? word spelling = some k) : k < 2 ^ 64 := by
  obtain ⟨digits, -, hdigits⟩ := Option.bind_eq_some_iff.mp hk
  exact lt_of_index? hdigits

/-- The position at which a text is found in a list that a machine word can count. -/
theorem lt_of_position? {α : Type} {id : α → String} {items : List α} {s : String} {k : Nat}
    (hk : position? (items.map id) s = some k) (hsmall : items.length < 2 ^ 64) : k < 2 ^ 64 := by
  obtain ⟨item, hitem, -⟩ := exists_of_position? id hk
  exact Nat.lt_trans (List.getElem?_eq_some_iff.mp hitem).1 hsmall

variable {source : Node}

theorem isWritable_case {k : Nat} (hk : k < 2 ^ 64) : (Handle.case k).isWritable = true :=
  decide_eq_true hk

theorem isWritable_ofDify (s : String) (hsource : source.HoldsFinite) :
    (ofDify s source).isWritable = true := by
  have hconfig := hsource.config
  unfold ofDify
  split
  · rfl
  · cases hkind : source.config with
    | condition cases =>
        rw [hkind] at hconfig
        dsimp only
        split
        next k hk => exact isWritable_case (lt_of_position? hk hconfig.1)
        next => split_ifs <;> rfl
    | classifier c =>
        rw [hkind] at hconfig
        dsimp only
        split
        next k hk => exact isWritable_case (lt_of_position? hk hconfig.2)
        next => rfl
    | _ => rfl

theorem isWritable_ofCoze (s : String) : (ofCoze s source).isWritable = true := by
  unfold ofCoze
  split
  · split
    · rfl
    · split
      · rfl
      · split
        next k hk =>
            split
            · exact isWritable_case (lt_of_indexAfter? hk)
            · rfl
        next => rfl
  · split
    · rfl
    · split
      next k hk => exact isWritable_case (lt_of_indexAfter? hk)
      next => rfl
  · rfl

theorem isWritable_ofBailian (s : String) : (ofBailian s source).isWritable = true := by
  unfold ofBailian
  split_ifs
  · rfl
  · rfl
  · rfl
  · split
    next k hk => exact isWritable_case (lt_of_indexAfter? hk)
    next => rfl

/-- The position that a handle selects fits in 64 bits, whatever it is read from. -/
theorem isWritable_ofSpelling (p : Platform) (spelling : Option String)
    (hsource : source.HoldsFinite) : (ofSpelling p spelling source).isWritable = true := by
  unfold ofSpelling
  cases spelling with
  | none => rfl
  | some s =>
      dsimp only
      split
      · rfl
      · cases p with
        | dify => exact isWritable_ofDify s hsource
        | coze => exact isWritable_ofCoze s
        | bailian => exact isWritable_ofBailian s

end Handle

end WorkflowGraph
