/-
# Parameters that can be read

A reader of parameters rejects a value of the wrong shape. A record of defaulted fields
is read from an object exactly as far as its fields are: every name that the object lists
must lead to a field that takes the value, and names of no field do not matter. The
shapes from which the adapters build their parameters are all among the accepted ones,
whatever the values in them are.
-/

import Mathlib.Data.String.Basic
import WorkflowGraph.Decoder.Params
import WorkflowGraph.Platform.Loose

namespace WorkflowGraph

namespace Fields

variable {β : Type}

theorem mem_of_mem_foldl_insert (pairs : List (String × β)) {t : Fields β}
    {entry : String × β}
    (hentry : entry ∈ pairs.foldl (fun t entry => insert entry.1 entry.2 t) t) :
    entry ∈ pairs ∨ entry ∈ t := by
  induction pairs generalizing t with
  | nil => exact Or.inr hentry
  | cons pair pairs ih =>
      rcases ih hentry with hpairs | hinserted
      · exact Or.inl (List.mem_cons_of_mem _ hpairs)
      · rcases mem_of_mem_insert hinserted with rfl | hold
        · exact Or.inl List.mem_cons_self
        · exact Or.inr hold

theorem nodup_keys_ofList (pairs : List (String × β)) :
    ((ofList pairs).map Prod.fst).Nodup :=
  (ascending_ofList pairs).nodup_keys

theorem mem_of_mem_ofList {pairs : List (String × β)} {entry : String × β}
    (hentry : entry ∈ ofList pairs) : entry ∈ pairs :=
  (mem_of_mem_foldl_insert pairs hentry).resolve_right List.not_mem_nil

end Fields

namespace Json.Reader

variable {α σ : Type}

/-- The reader makes something of the value. -/
def Accepts (read : Reader α) (j : Json) : Prop :=
  ∃ a, read j = .ok a

@[simp] theorem accepts_any (j : Json) : Accepts any j := ⟨j, rfl⟩

@[simp] theorem accepts_text_str (s : String) : Accepts text (.str s) := ⟨s, rfl⟩

@[simp] theorem accepts_bool_bool (b : Bool) : Accepts bool (.bool b) := ⟨b, rfl⟩

@[simp] theorem accepts_option_null (read : Reader α) : Accepts (option read) .null := ⟨none, rfl⟩

theorem accepts_option {read : Reader α} {j : Json} (hread : Accepts read j) :
    Accepts (option read) j := by
  obtain ⟨a, ha⟩ := hread
  cases j with
  | null => exact ⟨none, rfl⟩
  | bool b => exact ⟨some a, by simp [option, ha, Except.map]⟩
  | num n => exact ⟨some a, by simp [option, ha, Except.map]⟩
  | str s => exact ⟨some a, by simp [option, ha, Except.map]⟩
  | arr items => exact ⟨some a, by simp [option, ha, Except.map]⟩
  | obj fields => exact ⟨some a, by simp [option, ha, Except.map]⟩

/-- A value that may be absent is accepted if it is accepted when it is present. -/
theorem accepts_option_ofOption {β : Type} {read : Reader α} {write : β → Json} (b : Option β)
    (hread : ∀ b, Accepts (option read) (write b)) :
    Accepts (option read) (.ofOption write b) := by
  cases b with
  | none => exact accepts_option_null read
  | some b => exact hread b

/-- A list is accepted if its items are. -/
theorem accepts_list {read : Reader α} {items : List Json}
    (hitems : ∀ j ∈ items, Accepts read j) : Accepts (list read) (.arr items) := by
  unfold Accepts list
  induction items with
  | nil => exact ⟨[], rfl⟩
  | cons j items ih =>
      obtain ⟨a, ha⟩ := hitems j List.mem_cons_self
      obtain ⟨as, has⟩ := ih fun j hj => hitems j (List.mem_cons_of_mem _ hj)
      exact ⟨a :: as, by simp only [all, ha, has]; rfl⟩

namespace Field

/-- The field takes the value, whatever the record holds so far. -/
def Takes (f : Field σ) (j : Json) : Prop :=
  ∀ s, ∃ s', f.store j s = .ok s'

/-- A field that may be missing and has one name. -/
structure IsDefaulted (f : Field σ) : Prop where
  absence : f.absence = .defaulted
  aliases : f.aliases = []

@[simp] theorem isDefaulted_defaulted (name : String) (read : Reader α) (put : α → σ → σ) :
    (defaulted name read put).IsDefaulted :=
  ⟨rfl, rfl⟩

@[simp] theorem name_defaulted (name : String) (read : Reader α) (put : α → σ → σ) :
    (defaulted name read put).name = name :=
  rfl

theorem takes_defaulted {name : String} {read : Reader α} {put : α → σ → σ} {j : Json}
    (hread : Accepts read j) : (defaulted name read put).Takes j := by
  obtain ⟨a, ha⟩ := hread
  intro s
  exact ⟨put a s, by simp [defaulted, ofReader, ha, Except.map]⟩

end Field

/-- The entries of an object are read one after the other: none is met twice, and each that
belongs to a field is taken. -/
theorem entries_ok {fields : List (Field σ)} (hfields : ∀ f ∈ fields, f.IsDefaulted)
    (es : List (String × Json)) (hes : (es.map Prod.fst).Nodup)
    (htakes : ∀ e ∈ es, ∀ f ∈ fields, f.name = e.1 → f.Takes e.2) :
    ∀ seen s, (∀ e ∈ es, e.1 ∉ seen) → ∃ s', entries fields seen es s = .ok s' := by
  induction es with
  | nil =>
      intro seen s _
      have hnone : fields.find? (fun f => f.absence == .forbidden && !seen.contains f.name) =
          none := by
        refine List.find?_eq_none.mpr fun f hf => ?_
        rw [(hfields f hf).absence]
        simp
      exact ⟨s, by rw [entries, hnone]⟩
  | cons e es ih =>
      intro seen s hnew
      obtain ⟨key, j⟩ := e
      obtain ⟨hfirst, hrest⟩ := List.nodup_cons.mp hes
      have hlater := ih hrest fun e he => htakes e (List.mem_cons_of_mem _ he)
      cases hfound : fields.find? fun f => f.isNamed key with
      | none =>
          obtain ⟨s', hs'⟩ := hlater seen s fun e he => hnew e (List.mem_cons_of_mem _ he)
          exact ⟨s', by rw [entries, hfound]; exact hs'⟩
      | some f =>
          have hf := List.mem_of_find?_eq_some hfound
          have hname : f.name = key := by
            have hnamed := List.find?_some hfound
            simpa [Field.isNamed, (hfields f hf).aliases] using hnamed
          obtain ⟨s', hs'⟩ := htakes _ List.mem_cons_self f hf hname s
          have hfresh : f.name ∉ seen := hname ▸ hnew _ List.mem_cons_self
          obtain ⟨last, hlast⟩ := hlater (f.name :: seen) s' fun e he hseen => by
            rcases List.mem_cons.mp hseen with hsame | hold
            · have hkey : e.1 = key := hsame.trans hname
              exact hfirst (List.mem_map.mpr ⟨e, he, hkey⟩)
            · exact hnew e (List.mem_cons_of_mem _ he) hold
          refine ⟨last, ?_⟩
          simp [entries, hfound, hfresh, hs', hlast]

/-- A record of defaulted fields is read from an object if every field takes the values
that are listed under its name. -/
theorem accepts_record {name : String} {initial : σ} {fields : List (Field σ)}
    {pairs : List (String × Json)} (hfields : ∀ f ∈ fields, f.IsDefaulted)
    (htakes : ∀ f ∈ fields, ∀ j, (f.name, j) ∈ pairs → f.Takes j) :
    Accepts (record name initial fields) (.object pairs) := by
  refine entries_ok hfields _ (Fields.nodup_keys_ofList pairs) (fun e he f hf hname => ?_) []
    initial fun _ _ => List.not_mem_nil
  exact htakes f hf e.2 (hname ▸ Fields.mem_of_mem_ofList he)

end Json.Reader

namespace Params

open Json.Reader

/-! The shapes that the adapters give to single parameters. -/

@[simp] theorem accepts_text?_str (s : String) : Accepts text? (.str s) :=
  accepts_option (accepts_text_str s)

@[simp] theorem accepts_text?_ofText? (s : Option String) : Accepts text? (.ofText? s) :=
  accepts_option_ofOption s accepts_text?_str

@[simp] theorem accepts_pointer?_pointer (p : Option Pointer) :
    Accepts pointer? (Loose.pointer p) :=
  accepts_option_ofOption p fun p => accepts_option ⟨p, rfl⟩

/-- A number that is not finite is written as null, which an optional number may be. -/
theorem accepts_float_ofFloat (x : Binary64) : Accepts (option float) (.ofFloat x) := by
  unfold Json.ofFloat
  split
  · exact accepts_option ⟨x, rfl⟩
  · exact accepts_option_null float

/-- A number brought into the range of 32 bits is a number of 32 bits. -/
theorem exists_clampedInt_eq (x : Binary64) :
    ∃ n : Nat, x.clampedInt 0 0xffffffff = n ∧ n < 2 ^ 32 := by
  refine ⟨(x.clampedInt 0 0xffffffff).toNat, ?_⟩
  unfold Binary64.clampedInt
  split
  · decide
  · split
    · split <;> decide
    · omega

theorem accepts_word32_clampedInt (x : Binary64) :
    Accepts (option word32) (.num (.int (x.clampedInt 0 0xffffffff))) := by
  obtain ⟨n, hn, hbound⟩ := exists_clampedInt_eq x
  rw [hn]
  apply accepts_option
  exact ⟨n, if_pos hbound⟩

/-! Each record of parameters is read from an object whose parameters have their shapes. -/

theorem accepts_model (provider name : Option String) (temperature maxTokens : Option Binary64) :
    Accepts model (Loose.model provider name temperature maxTokens) := by
  have htemperature := accepts_option_ofOption temperature accepts_float_ofFloat
  have htokens := accepts_option_ofOption maxTokens accepts_word32_clampedInt
  refine accepts_record (by simp) ?_
  simp [Field.takes_defaulted, htemperature, htokens]

theorem accepts_finish {answer : Json} (hanswer : Accepts text? answer) :
    Accepts finish (.object [("answer", answer)]) := by
  refine accepts_record (by simp) ?_
  simp [Field.takes_defaulted, hanswer]

theorem accepts_llm {m system prompt : Json} (hmodel : Accepts model m)
    (hsystem : Accepts text? system) (hprompt : Accepts text? prompt) :
    Accepts llm (.object [("model", m), ("system_prompt", system), ("prompt", prompt)]) := by
  refine accepts_record (by simp) ?_
  simp [Field.takes_defaulted, hmodel, hsystem, hprompt]

theorem accepts_code {language script : Json} (hlanguage : Accepts text? language)
    (hscript : Accepts text? script) :
    Accepts code (.object [("language", language), ("code", script)]) := by
  refine accepts_record (by simp) ?_
  simp [Field.takes_defaulted, hlanguage, hscript]

theorem accepts_operand {left operator : Json} (hleft : Accepts pointer? left)
    (hoperator : Accepts text? operator) (right : Json) :
    Accepts operand (.object [("left", left), ("operator", operator), ("right", right)]) := by
  refine accepts_record (by simp) ?_
  simp [Field.takes_defaulted, hleft, hoperator]

theorem accepts_branch {id logic : Json} {conditions : List Json} (hid : Accepts text? id)
    (hlogic : Accepts text? logic) (hconditions : ∀ j ∈ conditions, Accepts operand j) :
    Accepts branch (.object [("id", id), ("logical_operator", logic),
      ("conditions", .arr conditions)]) := by
  have hlist := accepts_list hconditions
  refine accepts_record (by simp) ?_
  simp [Field.takes_defaulted, hid, hlogic, hlist]

theorem accepts_condition {cases : List Json} (hcases : ∀ j ∈ cases, Accepts branch j) :
    Accepts condition (.object [("cases", .arr cases)]) := by
  have hlist := accepts_list hcases
  refine accepts_record (by simp) ?_
  simp [Field.takes_defaulted, hlist]

theorem accepts_classEntry {id name : Json} (hid : Accepts text? id) (hname : Accepts text? name) :
    Accepts classEntry (.object [("id", id), ("name", name)]) := by
  refine accepts_record (by simp) ?_
  simp [Field.takes_defaulted, hid, hname]

theorem accepts_classifier {m query instruction : Json} {classes : List Json}
    (hmodel : Accepts model m) (hquery : Accepts pointer? query)
    (hinstruction : Accepts text? instruction) (hclasses : ∀ j ∈ classes, Accepts classEntry j) :
    Accepts classifier (.object [("model", m), ("query", query), ("instruction", instruction),
      ("classes", .arr classes)]) := by
  have hlist := accepts_list hclasses
  refine accepts_record (by simp) ?_
  simp [Field.takes_defaulted, hmodel, hquery, hinstruction, hlist]

/-- Only one platform names the loop-start node of an iteration among its parameters. -/
theorem accepts_iteration {iterator output type : Json} {start : List (String × Json)}
    (hiterator : Accepts pointer? iterator) (houtput : Accepts pointer? output)
    (htype : Accepts text? type) (parallel : Bool)
    (hstart : ∀ e ∈ start, e.1 = "start_node_id" ∧ Accepts text? e.2) :
    Accepts iteration (.object (("iterator", iterator) :: ("output", output) ::
      ("output_type", type) :: ("parallel", .bool parallel) :: start)) := by
  have hother : ∀ {key j}, key ≠ "start_node_id" → (key, j) ∉ start :=
    fun hkey he => hkey (hstart _ he).1
  refine accepts_record (by simp) ?_
  simp only [List.forall_mem_cons, Field.name_defaulted]
  refine ⟨?_, ?_, ?_, ?_, fun j hj => ?_, nofun⟩
  · simp [Field.takes_defaulted, hiterator, hother]
  · simp [Field.takes_defaulted, houtput, hother]
  · simp [Field.takes_defaulted, htype, hother]
  · simp [Field.takes_defaulted, hother]
  · exact Field.takes_defaulted (hstart _ (by simpa using hj)).2

end Params

end WorkflowGraph
