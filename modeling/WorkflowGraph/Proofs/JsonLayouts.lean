/-
# Laws of readers of JSON values

A record is written with its fields in declaration order, and a program that keeps JSON
objects in sorted maps hands them on in ascending order of their names. A layout is a
way to arrange the fields of every object of a value; both orders are layouts. There is
one law for every way of putting readers together: when the parts are read back from
their notation in a layout, so is the whole. The law of records asks that storing one
field commutes with storing another, so that the order of the entries does not matter.
-/

import Mathlib.Data.List.Pairwise
import Mathlib.Data.List.Perm.Basic
import Mathlib.Logic.Function.Conjugate
import WorkflowGraph.Json.Reader
import WorkflowGraph.Graph.Json
import WorkflowGraph.Proofs.ParamReading

namespace WorkflowGraph

namespace Fields

variable {β : Type}

theorem perm_insert {key : String} {t : Fields β} (value : β) (hnew : key ∉ t.keys) :
    (insert key value t).Perm ((key, value) :: t) := by
  induction t with
  | nil => exact List.Perm.refl _
  | cons head t ih =>
    have hother : key ≠ head.1 := fun same => hnew (same ▸ List.mem_cons_self)
    have hlater : key ∉ keys t := fun hin => hnew (List.mem_cons_of_mem _ hin)
    rw [insert, if_neg hother]
    split
    case isTrue => exact List.Perm.refl _
    case isFalse => exact ((ih hlater).cons head).trans (List.Perm.swap _ _ t)

theorem perm_foldl_insert (pairs : List (String × β)) {t : Fields β}
    (hnames : (t.keys ++ pairs.map Prod.fst).Nodup) :
    (pairs.foldl (fun t entry => insert entry.1 entry.2 t) t).Perm (t ++ pairs) := by
  induction pairs generalizing t with
  | nil => rw [List.append_nil]; exact List.Perm.refl t
  | cons pair pairs ih =>
    have hnew : pair.1 ∉ t.keys := fun hin =>
      (List.nodup_append.mp hnames).2.2 _ hin _ List.mem_cons_self rfl
    have hinsert := perm_insert pair.2 hnew
    have hkeys : ((insert pair.1 pair.2 t).keys ++ pairs.map Prod.fst).Perm
        (t.keys ++ (pair :: pairs).map Prod.fst) :=
      ((hinsert.map Prod.fst).append_right _).trans List.perm_middle.symm
    have hfold := ih (hkeys.nodup_iff.mpr hnames)
    exact (hfold.trans (hinsert.append_right pairs)).trans List.perm_middle.symm

/-- A table of pairs with different names lists the same pairs, possibly in another order. -/
theorem perm_ofList {pairs : List (String × β)} (hnames : (pairs.map Prod.fst).Nodup) :
    (ofList pairs).Perm pairs :=
  perm_foldl_insert pairs (t := []) hnames

theorem insert_eq_append {key : String} {t : Fields β} (value : β) (hlast : ∀ k ∈ t.keys, k < key) :
    insert key value t = t ++ [(key, value)] := by
  induction t with
  | nil => rfl
  | cons head t ih =>
    have hhead : head.1 < key := hlast _ List.mem_cons_self
    rw [insert, if_neg (ne_of_gt hhead), if_neg (not_lt_of_gt hhead),
      ih fun k hk => hlast k (List.mem_cons_of_mem _ hk)]
    rfl

theorem foldl_insert_eq_append (pairs : List (String × β)) {t : Fields β}
    (hascending : Ascending (t ++ pairs)) :
    pairs.foldl (fun t entry => insert entry.1 entry.2 t) t = t ++ pairs := by
  induction pairs generalizing t with
  | nil => exact (List.append_nil t).symm
  | cons pair pairs ih =>
    have hlast : ∀ k ∈ t.keys, k < pair.1 := by
      intro k hk
      obtain ⟨entry, hentry, rfl⟩ := List.mem_map.mp hk
      exact (List.pairwise_append.mp hascending).2.2 entry hentry pair List.mem_cons_self
    rw [List.foldl_cons, insert_eq_append pair.2 hlast, ih (by simpa using hascending),
      List.append_assoc]
    rfl

/-- A list of pairs that is in order already is a table. -/
theorem ofList_eq_self {pairs : List (String × β)} (hascending : Ascending pairs) :
    ofList pairs = pairs :=
  foldl_insert_eq_append pairs (t := []) hascending

end Fields

theorem Table.ofList_entries {β : Type} (t : Table β) : ofList t.entries = t :=
  Table.ext (Fields.ofList_eq_self t.ascending)

namespace Json

mutual
/-- Whether every object in the value lists its fields in ascending order of their names.
Values that were read from a text all do. -/
def isOrdered : Json → Bool
  | .arr items => itemsOrdered items
  | .obj fields => decide (Fields.Ascending fields) && fieldsOrdered fields
  | _ => true

/-- Whether every object in every value of a list is in order. -/
def itemsOrdered : List Json → Bool
  | [] => true
  | j :: js => j.isOrdered && itemsOrdered js

/-- Whether every object in the value of every field is in order. -/
def fieldsOrdered : List (String × Json) → Bool
  | [] => true
  | (_, j) :: fs => j.isOrdered && fieldsOrdered fs
end

/-- A function that treats the members of a list one by one maps them. -/
theorem eq_map_of_cons {α β : Type} {f : List α → List β} {g : α → β} (hnil : f [] = [])
    (hcons : ∀ a as, f (a :: as) = g a :: f as) (as : List α) : f as = as.map g := by
  induction as with
  | nil => exact hnil
  | cons a as ih => rw [hcons, ih, List.map_cons]

/-- A check that treats the members of a list one by one holds of each of them. -/
theorem holds_of_mem {α : Type} {f : List α → Bool} {g : α → Bool} {a : α} {as : List α}
    (h : f as = true) (ha : a ∈ as) (hcons : ∀ a as, f (a :: as) = (g a && f as)) :
    g a = true := by
  induction ha with
  | head =>
    rw [hcons] at h
    exact (Bool.and_eq_true_iff.mp h).1
  | tail _ _ ih =>
    rw [hcons] at h
    exact ih (Bool.and_eq_true_iff.mp h).2

theorem sortedItems_eq_map (items : List Json) : sortedItems items = items.map sorted :=
  eq_map_of_cons rfl (fun _ _ => rfl) items

theorem sortedFields_eq_map (fields : List (String × Json)) :
    sortedFields fields = fields.map (Prod.map id sorted) :=
  eq_map_of_cons rfl (fun _ _ => rfl) fields

theorem map_fst_map (lay : Json → Json) (fields : List (String × Json)) :
    (fields.map (Prod.map id lay)).map Prod.fst = fields.map Prod.fst := by
  simp

theorem ascending_map {β γ : Type} {t : Fields β} (h : Fields.Ascending t) (f : β → γ) :
    Fields.Ascending (t.map (Prod.map id f)) :=
  List.pairwise_map.mpr h

/-- A way to arrange the fields of all objects of a value. What is no object keeps its
form, and a list of fields that is in order already stays as it is. -/
structure Layout where
  lay : Json → Json
  lay_null : lay .null = .null
  lay_bool : ∀ b, lay (.bool b) = .bool b
  lay_num : ∀ n, lay (.num n) = .num n
  lay_str : ∀ s, lay (.str s) = .str s
  lay_arr : ∀ items, lay (.arr items) = .arr (items.map lay)
  lay_obj : ∀ fields, (fields.map Prod.fst).Nodup → ∃ arranged,
    lay (.obj fields) = .obj arranged ∧ arranged.Perm (fields.map (Prod.map id lay))
  lay_table : ∀ t, Fields.Ascending t → lay (.obj t) = .obj (t.map (Prod.map id lay))

namespace Layout

/-- The order in which the fields were written. -/
def declared : Layout where
  lay := id
  lay_null := rfl
  lay_bool _ := rfl
  lay_num _ := rfl
  lay_str _ := rfl
  lay_arr items := by rw [List.map_id]; rfl
  lay_obj fields _ := ⟨fields, rfl, by rw [Prod.map_id, List.map_id]⟩
  lay_table t _ := by rw [Prod.map_id, List.map_id]; rfl

/-- The order of sorted maps. -/
def ascending : Layout where
  lay := sorted
  lay_null := rfl
  lay_bool _ := rfl
  lay_num _ := rfl
  lay_str _ := rfl
  lay_arr items := by rw [sorted, sortedItems_eq_map]
  lay_obj fields hnames := by
    refine ⟨Fields.ofList (fields.map (Prod.map id sorted)), ?_, Fields.perm_ofList ?_⟩
    · rw [sorted, sortedFields_eq_map, object]
    · rwa [map_fst_map]
  lay_table t ht := by
    rw [sorted, sortedFields_eq_map, object, Fields.ofList_eq_self (ascending_map ht sorted)]

variable (L : Layout)

mutual
/-- A value in order is the same in every layout. -/
theorem lay_eq_self : ∀ j : Json, j.isOrdered = true → L.lay j = j
  | .null, _ => L.lay_null
  | .bool b, _ => L.lay_bool b
  | .num n, _ => L.lay_num n
  | .str s, _ => L.lay_str s
  | .arr items, h => by
    rw [L.lay_arr, map_lay_items items h]
  | .obj fields, h => by
    obtain ⟨hascending, hfields⟩ := Bool.and_eq_true_iff.mp h
    rw [L.lay_table fields (of_decide_eq_true hascending), map_lay_fields fields hfields]

theorem map_lay_items : ∀ items : List Json, itemsOrdered items = true → items.map L.lay = items
  | [], _ => rfl
  | j :: js, h => by
    obtain ⟨hfirst, hrest⟩ := Bool.and_eq_true_iff.mp h
    rw [List.map_cons, lay_eq_self j hfirst, map_lay_items js hrest]

theorem map_lay_fields : ∀ fields : List (String × Json), fieldsOrdered fields = true →
    fields.map (Prod.map id L.lay) = fields
  | [], _ => rfl
  | (k, j) :: fs, h => by
    obtain ⟨hfirst, hrest⟩ := Bool.and_eq_true_iff.mp h
    rw [List.map_cons, map_lay_fields fs hrest, Prod.map_apply, lay_eq_self j hfirst]
    rfl
end

theorem lay_tagged (name : String) (j : Json) : L.lay (.tagged name j) = .tagged name (L.lay j) :=
  L.lay_table [(name, j)] (List.pairwise_singleton _ _)

/-! ## Depth -/

theorem depth_pos (j : Json) : 0 < j.depth := by
  cases j <;> simp [depth]

theorem depth_le_depthOfItems {j : Json} {items : List Json} (h : j ∈ items) :
    j.depth ≤ depthOfItems items := by
  induction h with
  | head => exact Nat.le_max_left _ _
  | tail _ _ ih => exact Nat.le_trans ih (Nat.le_max_right _ _)

theorem depth_le_depthOfFields {f : String × Json} {fields : List (String × Json)}
    (h : f ∈ fields) : f.2.depth ≤ depthOfFields fields := by
  induction h with
  | head => exact Nat.le_max_left _ _
  | tail _ _ ih => exact Nat.le_trans ih (Nat.le_max_right _ _)

/-- An item of a list is less deep than the list, in every layout. -/
theorem depth_item_lt {j : Json} {items : List Json} (h : j ∈ items) :
    (L.lay j).depth < (L.lay (.arr items)).depth := by
  rw [L.lay_arr, depth]
  exact Nat.lt_succ_of_le (depth_le_depthOfItems (List.mem_map_of_mem h))

/-- The value of a field is less deep than the object, in every layout. -/
theorem depth_field_lt (name : String) {j : Json} {fields : List (String × Json)}
    (hnames : (fields.map Prod.fst).Nodup) (h : (name, j) ∈ fields) :
    (L.lay j).depth < (L.lay (.obj fields)).depth := by
  obtain ⟨arranged, hlay, hperm⟩ := L.lay_obj fields hnames
  have hin : (name, L.lay j) ∈ arranged :=
    hperm.mem_iff.mpr (List.mem_map.mpr ⟨_, h, rfl⟩)
  rw [hlay, depth]
  exact Nat.lt_succ_of_le (depth_le_depthOfFields hin)

theorem depth_tagged_lt (name : String) (j : Json) :
    (L.lay j).depth < (L.lay (.tagged name j)).depth :=
  L.depth_field_lt name (List.pairwise_singleton _ name) (List.mem_singleton.mpr rfl)

/-! ## Readers -/

variable {α β σ : Type}

/-- The reader finds the value in a notation of it, arranged by the layout. -/
def Restores (read : Reader α) (j : Json) (a : α) : Prop :=
  read (L.lay j) = .ok a

theorem restores_text (s : String) : L.Restores Reader.text (.str s) s := by
  rw [Restores, L.lay_str]
  rfl

theorem restores_bool (b : Bool) : L.Restores Reader.bool (.bool b) b := by
  rw [Restores, L.lay_bool]
  rfl

theorem restores_float {x : Binary64} (finite : x.isFinite = true) :
    L.Restores Reader.float (.ofFloat x) x := by
  rw [Restores, ofFloat, if_pos finite, L.lay_num]
  rfl

theorem restores_unsigned {width n : Nat} (expected : String) (small : n < 2 ^ width) :
    L.Restores (Reader.unsigned width expected) (.nat n) n := by
  rw [Restores, nat, L.lay_num]
  exact if_pos small

theorem restores_any {j : Json} (ordered : j.isOrdered = true) : L.Restores Reader.any j j := by
  rw [Restores, L.lay_eq_self j ordered]
  rfl

variable {L}

theorem Restores.map {read : Reader α} {j : Json} {a : α} (h : L.Restores read j a) (f : α → β) :
    L.Restores (fun j => (read j).map f) j (f a) := by
  show (read (L.lay j)).map f = _
  rw [show read (L.lay j) = .ok a from h]
  rfl

/-- A reader that makes nothing of null is not confused by values that may be absent. -/
theorem restores_option_map {read : Reader β} {write : α → Json} {view : α → β} {a? : Option α}
    (present : ∀ a ∈ a?, L.Restores read (write a) (view a)) (refuses : ∀ b, read .null ≠ .ok b) :
    L.Restores (Reader.option read) (.ofOption write a?) (a?.map view) := by
  cases a? with
  | none => rw [Restores, ofOption, L.lay_null]; rfl
  | some a =>
    have found : read (L.lay (write a)) = .ok (view a) := present a rfl
    show Reader.option read (L.lay (write a)) = .ok (some (view a))
    unfold Reader.option
    split
    case h_1 null => exact absurd (null ▸ found) (refuses (view a))
    case h_2 => rw [found]; rfl

theorem restores_option {read : Reader α} {write : α → Json} {a? : Option α}
    (present : ∀ a ∈ a?, L.Restores read (write a) a) (refuses : ∀ a, read .null ≠ .ok a) :
    L.Restores (Reader.option read) (.ofOption write a?) a? := by
  have h : L.Restores (Reader.option read) (.ofOption write a?) (a?.map id) :=
    restores_option_map present refuses
  rwa [Option.map_id] at h

theorem restores_text? (s : Option String) :
    L.Restores (Reader.option Reader.text) (.ofText? s) s :=
  restores_option (fun s _ => L.restores_text s) nofun

theorem all_map {read : Reader α} {write : α → Json} {as : List α}
    (h : ∀ a ∈ as, L.Restores read (write a) a) :
    Reader.all read ((as.map write).map L.lay) = .ok as := by
  induction as with
  | nil => rfl
  | cons a as ih =>
    have first : read (L.lay (write a)) = .ok a := h a List.mem_cons_self
    rw [List.map_cons, List.map_cons, Reader.all, first,
      ih fun b hb => h b (List.mem_cons_of_mem a hb)]
    rfl

theorem restores_list {read : Reader α} {write : α → Json} {as : List α}
    (h : ∀ a ∈ as, L.Restores read (write a) a) :
    L.Restores (Reader.list read) (.ofList write as) as := by
  rw [Restores, ofList, L.lay_arr]
  exact all_map h

theorem allFields_map {read : Reader α} {write : α → Json} {t : Fields α}
    (h : ∀ entry ∈ t, L.Restores read (write entry.2) entry.2) :
    Reader.allFields read ((t.map (Prod.map id write)).map (Prod.map id L.lay)) = .ok t := by
  induction t with
  | nil => rfl
  | cons entry t ih =>
    have first : read (L.lay (write entry.2)) = .ok entry.2 := h entry List.mem_cons_self
    have others := ih fun e he => h e (List.mem_cons_of_mem entry he)
    rw [List.map_cons, List.map_cons, Reader.allFields, others]
    simp only [Prod.map_snd, first]
    rfl

/-- A map with free names keeps its entries in order. -/
theorem restores_table {read : Reader α} {write : α → Json} {t : Table α}
    (h : ∀ entry ∈ t.entries, L.Restores read (write entry.2) entry.2) :
    L.Restores (Reader.table read) (.obj (t.entries.map (Prod.map id write))) t := by
  rw [Restores, L.lay_table _ (ascending_map t.ascending write), Reader.table, Reader.fields,
    allFields_map h, Except.map, t.ofList_entries]

theorem restores_pair {first : Reader α} {second : Reader β} {i j : Json} {a : α} {b : β}
    (ha : L.Restores first i a) (hb : L.Restores second j b) :
    L.Restores (Reader.pair first second) (.arr [i, j]) (a, b) := by
  have ha : first (L.lay i) = .ok a := ha
  have hb : second (L.lay j) = .ok b := hb
  rw [Restores, L.lay_arr, List.map_cons, List.map_cons, List.map_nil, Reader.pair, ha, hb]
  rfl

/-! ## Alternatives -/

/-- An alternative without a value is found by its name. -/
theorem restores_bare {alternatives : List (Reader.Variant α)} {tag : String} {a : α}
    (found : alternatives.find? (fun v => v.name == tag) = some (.bare tag a)) :
    L.Restores (Reader.variants alternatives) (.str tag) a := by
  rw [Restores, L.lay_str, Reader.variants, found]

/-- An alternative with a value is found by the name of the only field. -/
theorem restores_tagged {alternatives : List (Reader.Variant α)} {tag : String} {read : Reader α}
    {j : Json} {a : α}
    (found : alternatives.find? (fun v => v.name == tag) = some (.carrying tag read))
    (h : L.Restores read j a) : L.Restores (Reader.variants alternatives) (.tagged tag j) a := by
  rw [Restores, lay_tagged, tagged, Reader.variants, found]
  exact h

/-! ## Records -/

/-- Storing the notation of a value, arranged by the layout, under the only name of the
field does the same to every record. -/
structure Stores (L : Layout) (f : Reader.Field σ) (name : String) (j : Json) (put : σ → σ) :
    Prop where
  name_eq : f.name = name
  aliases : f.aliases = []
  store : ∀ s, f.store (L.lay j) s = .ok (put s)

theorem Restores.stores {read : Reader α} {j : Json} {a : α} (h : L.Restores read j a)
    (absence : Reader.Absence) (name : String) (put : α → σ → σ) :
    L.Stores (Reader.Field.ofReader absence name read put) name j (put a) where
  name_eq := rfl
  aliases := rfl
  store s := by
    show (read (L.lay j)).map _ = _
    rw [show read (L.lay j) = .ok a from h]
    rfl

/-- Every field of a record, with the entry that is written for it and what storing the
entry does. -/
inductive StoresAll (L : Layout) :
    List (Reader.Field σ) → List (String × Json) → List (σ → σ) → Prop
  | nil : StoresAll L [] [] []
  | cons {f : Reader.Field σ} {name : String} {j : Json} {put : σ → σ}
      {fields : List (Reader.Field σ)} {es : List (String × Json)} {puts : List (σ → σ)}
      (first : L.Stores f name j put) (rest : StoresAll L fields es puts) :
      StoresAll L (f :: fields) ((name, j) :: es) (put :: puts)

theorem StoresAll.map_name {fields : List (Reader.Field σ)} {es : List (String × Json)}
    {puts : List (σ → σ)} (h : L.StoresAll fields es puts) :
    fields.map Reader.Field.name = es.map Prod.fst := by
  induction h with
  | nil => rfl
  | cons first _ ih => rw [List.map_cons, List.map_cons, first.name_eq, ih]

theorem StoresAll.aliases {fields : List (Reader.Field σ)} {es : List (String × Json)}
    {puts : List (σ → σ)} (h : L.StoresAll fields es puts) : ∀ f ∈ fields, f.aliases = [] := by
  induction h with
  | nil => nofun
  | cons first _ ih => exact List.forall_mem_cons.mpr ⟨first.aliases, ih⟩

/-- An entry belongs to one of the fields, and storing it does the same to every record. -/
def Puts (fields : List (Reader.Field σ)) (entry : String × Json) (put : σ → σ) : Prop :=
  ∃ f ∈ fields, f.name = entry.1 ∧ ∀ s, f.store entry.2 s = .ok (put s)

theorem StoresAll.forall₂_puts {fields : List (Reader.Field σ)} {es : List (String × Json)}
    {puts : List (σ → σ)} (h : L.StoresAll fields es puts) :
    List.Forall₂ (Puts fields) (es.map (Prod.map id L.lay)) puts := by
  induction h with
  | nil => exact List.Forall₂.nil
  | @cons f name j put fields es puts first _ ih =>
    refine List.Forall₂.cons ⟨f, List.mem_cons_self, first.name_eq, first.store⟩ ?_
    refine ih.imp fun entry put ⟨g, hg, hname, hstore⟩ => ?_
    exact ⟨g, List.mem_cons_of_mem f hg, hname, hstore⟩

theorem find?_isNamed {fields : List (Reader.Field σ)}
    (hnames : (fields.map Reader.Field.name).Nodup)
    (hplain : ∀ f ∈ fields, f.aliases = []) {f : Reader.Field σ} (hf : f ∈ fields) :
    fields.find? (fun g => g.isNamed f.name) = some f := by
  obtain ⟨before, after, rfl⟩ := List.append_of_mem hf
  refine List.find?_eq_some_iff_append.mpr ⟨by simp [Reader.Field.isNamed], before, after, rfl, ?_⟩
  intro g hg
  have hother : g.name ≠ f.name := by
    rw [List.map_append, List.map_cons] at hnames
    exact (List.nodup_append.mp hnames).2.2 _ (List.mem_map_of_mem hg) _ List.mem_cons_self
  simp [Reader.Field.isNamed, hother, hplain g (List.mem_append_left _ hg)]

/-- Entries that belong to different fields, and to all of them in the end, are stored one
after the other. -/
theorem entries_eq_ok {fields : List (Reader.Field σ)}
    (hnames : (fields.map Reader.Field.name).Nodup)
    (hplain : ∀ f ∈ fields, f.aliases = []) {es : List (String × Json)} {puts : List (σ → σ)}
    (hputs : List.Forall₂ (Puts fields) es puts) : ∀ (seen : List String) (s : σ),
      (es.map Prod.fst).Nodup → (∀ entry ∈ es, entry.1 ∉ seen) →
      (∀ f ∈ fields, f.name ∈ seen ∨ f.name ∈ es.map Prod.fst) →
      Reader.entries fields seen es s = .ok (puts.foldl (fun s put => put s) s) := by
  induction hputs with
  | nil =>
    intro seen s _ _ hall
    have complete : fields.find? (fun f => f.absence == .forbidden && !seen.contains f.name) =
        none := by
      refine List.find?_eq_none.mpr fun f hf => ?_
      have hseen : f.name ∈ seen := (hall f hf).resolve_right List.not_mem_nil
      simp [hseen]
    rw [Reader.entries, complete]
    rfl
  | @cons entry put es puts hfirst _ ih =>
    intro seen s hnodup hfresh hall
    obtain ⟨f, hf, hname, hstore⟩ := hfirst
    obtain ⟨key, j⟩ := entry
    obtain rfl : f.name = key := hname
    obtain ⟨hnew, hnodup⟩ := List.nodup_cons.mp hnodup
    have hunseen : seen.contains f.name = false := by
      simpa using hfresh _ List.mem_cons_self
    rw [Reader.entries, find?_isNamed hnames hplain hf]
    simp only [hunseen, Bool.false_eq_true, if_false, hstore]
    refine ih (f.name :: seen) (put s) hnodup (fun e he hseen => ?_) fun g hg => ?_
    · rcases List.mem_cons.mp hseen with hsame | hold
      · exact hnew (List.mem_map.mpr ⟨e, he, hsame⟩)
      · exact hfresh e (List.mem_cons_of_mem _ he) hold
    · rcases hall g hg with hseen | hlisted
      · exact Or.inl (List.mem_cons_of_mem _ hseen)
      · rcases List.mem_cons.mp hlisted with hsame | hlater
        · exact Or.inl (List.mem_cons.mpr (Or.inl hsame))
        · exact Or.inr hlater

theorem commute_iff {f g : σ → σ} : Function.Commute f g ↔ ∀ s, f (g s) = g (f s) :=
  Iff.rfl

/-- Changes that commute with each other may be made in any order. -/
theorem foldl_eq_of_perm {puts puts' : List (σ → σ)} (hperm : puts.Perm puts')
    (hcommute : puts.Pairwise Function.Commute) (s : σ) :
    puts.foldl (fun s put => put s) s = puts'.foldl (fun s put => put s) s := by
  have symmetric : Std.Symm (Function.Commute : (σ → σ) → (σ → σ) → Prop) :=
    ⟨fun _ _ h => h.symm⟩
  have hall := hcommute.forall_of_forall fun p _ => Function.Commute.refl p
  exact hperm.foldl_eq' (fun p hp q hq s => hall hq hp s) s

/-- A record is read from every arrangement of the entries for its fields. -/
theorem StoresAll.record_eq_ok {name : String} {initial a : σ} {fields : List (Reader.Field σ)}
    {es : List (String × Json)} {puts : List (σ → σ)} (h : L.StoresAll fields es puts)
    (hnames : (es.map Prod.fst).Nodup)
    (hcommute : puts.Pairwise Function.Commute)
    (hwhole : puts.foldl (fun s put => put s) initial = a) {arranged : List (String × Json)}
    (hperm : arranged.Perm (es.map (Prod.map id L.lay))) :
    Reader.record name initial fields (.obj arranged) = .ok a := by
  obtain ⟨puts', hputs, hperm'⟩ := List.perm_comp_forall₂ hperm h.forall₂_puts
  have hkeys : (arranged.map Prod.fst).Perm (es.map Prod.fst) := by
    rw [← map_fst_map L.lay es]
    exact hperm.map Prod.fst
  have hread : Reader.entries fields [] arranged initial = _ :=
    entries_eq_ok (h.map_name ▸ hnames) h.aliases hputs [] initial (hkeys.nodup_iff.mpr hnames)
      (fun _ _ => List.not_mem_nil)
      fun f hf => Or.inr (hkeys.mem_iff.mpr (h.map_name ▸ List.mem_map_of_mem hf))
  rw [Reader.record, hread, ← foldl_eq_of_perm hperm'.symm hcommute, hwhole]

/-- A record is read back from an object that lists its fields in any order. -/
theorem restores_fields {name : String} {initial a : σ} {fields : List (Reader.Field σ)}
    {es : List (String × Json)} {puts : List (σ → σ)} (h : L.StoresAll fields es puts)
    (hnames : (es.map Prod.fst).Nodup)
    (hcommute : puts.Pairwise Function.Commute)
    (hwhole : puts.foldl (fun s put => put s) initial = a) :
    L.Restores (Reader.record name initial fields) (.obj es) a := by
  obtain ⟨arranged, hlay, hperm⟩ := L.lay_obj es hnames
  rw [Restores, hlay]
  exact h.record_eq_ok hnames hcommute hwhole hperm

/-- A record is read from the object that is made of the entries for its fields. -/
theorem StoresAll.read_object {name : String} {initial a : σ} {fields : List (Reader.Field σ)}
    {es : List (String × Json)} {puts : List (σ → σ)} (h : declared.StoresAll fields es puts)
    (hnames : (es.map Prod.fst).Nodup)
    (hcommute : puts.Pairwise Function.Commute)
    (hwhole : puts.foldl (fun s put => put s) initial = a) :
    Reader.record name initial fields (.object es) = .ok a := by
  refine h.record_eq_ok hnames hcommute hwhole ?_
  have hsame : es.map (Prod.map id declared.lay) = es := by
    rw [declared, Prod.map_id, List.map_id]
  rw [hsame]
  exact Fields.perm_ofList hnames

end Layout

end Json

end WorkflowGraph
