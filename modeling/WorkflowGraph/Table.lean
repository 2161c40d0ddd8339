/-
# Named values and tables

The fields of an object are a list of names with values, in whatever order they were
written. A table is a finite map from names to values: it lists every name once, in
ascending order. Texts are compared by code points, which is also the order of their
UTF-8 bytes, so a table lists its entries in one order whatever the order they were
entered in.
-/

namespace WorkflowGraph

/-- A list of named values. -/
abbrev Fields (β : Type) := List (String × β)

namespace Fields

variable {β : Type}

/-- The first value of a name. -/
def get? (key : String) : Fields β → Option β
  | [] => none
  | (k, v) :: t => if k = key then some v else get? key t

/-- Whether a name is in use. -/
def hasKey (key : String) (t : Fields β) : Bool :=
  t.any fun entry => entry.1 == key

/-- A name is in use exactly when a value is stored under it. -/
theorem hasKey_eq_isSome_get? (key : String) (t : Fields β) :
    hasKey key t = (get? key t).isSome := by
  induction t with
  | nil => rfl
  | cons entry t ih =>
    obtain ⟨name, value⟩ := entry
    simp only [hasKey] at ih ⊢
    by_cases hit : name = key <;> simp [get?, hit, ih]

theorem mem_of_get?_eq_some {key : String} {t : Fields β} {value : β}
    (hvalue : get? key t = some value) : (key, value) ∈ t := by
  induction t with
  | nil => cases hvalue
  | cons entry rest ih =>
    obtain ⟨name, other⟩ := entry
    unfold get? at hvalue
    split at hvalue
    next hname =>
      obtain rfl := Option.some.inj hvalue
      exact hname ▸ List.mem_cons_self
    next => exact List.mem_cons_of_mem _ (ih hvalue)

/-- Stores a value under a name, in place of any earlier one, and before the names that
come after it. -/
def insert (key : String) (value : β) : Fields β → Fields β
  | [] => [(key, value)]
  | (k, v) :: t =>
    if key = k then (key, value) :: t
    else if key < k then (key, value) :: (k, v) :: t
    else (k, v) :: insert key value t

/-- Storing a value changes the entry of its name and no other one. -/
theorem get?_insert (key k : String) (value : β) (t : Fields β) :
    get? k (insert key value t) = if key = k then some value else get? k t := by
  induction t with
  | nil => simp [insert, get?]
  | cons entry t ih =>
    obtain ⟨name, old⟩ := entry
    by_cases same : key = name
    · by_cases hit : name = k <;> simp [insert, get?, same, hit]
    · by_cases less : key < name
      · simp [insert, get?, same, less]
      · by_cases hit : name = k
        · subst hit
          simp [insert, get?, same, less]
        · simp [insert, get?, same, less, hit, ih]

/-- Removes a name. -/
def erase (key : String) (t : Fields β) : Fields β :=
  t.filter fun entry => entry.1 != key

/-- Removing a name removes its entry and no other one. -/
theorem get?_erase (key k : String) (t : Fields β) :
    get? k (erase key t) = if key = k then none else get? k t := by
  induction t with
  | nil => simp [erase, get?]
  | cons entry t ih =>
    obtain ⟨name, value⟩ := entry
    simp only [erase] at ih ⊢
    by_cases removed : name = key
    · subst removed
      by_cases hit : name = k
      · subst hit
        simpa using ih
      · simp [hit, get?, ih]
    · by_cases hit : name = k
      · subst hit
        simp [removed, get?, Ne.symm removed]
      · simp [removed, hit, ih, get?]

/-- The pairs of a list in ascending order of the names; a repeated name keeps its last
value. -/
def ofList (pairs : List (String × β)) : Fields β :=
  pairs.foldl (fun t entry => insert entry.1 entry.2 t) []

/-- The names in use. -/
def keys (t : Fields β) : List String :=
  t.map Prod.fst

/-- The names are in strictly ascending order. -/
def Ascending (t : Fields β) : Prop :=
  t.Pairwise fun a b => a.1 < b.1

instance (t : Fields β) : Decidable t.Ascending :=
  inferInstanceAs (Decidable (t.Pairwise _))

theorem mem_of_mem_insert {key : String} {value : β} {t : Fields β} {entry : String × β}
    (hentry : entry ∈ insert key value t) : entry = (key, value) ∨ entry ∈ t := by
  induction t with
  | nil => exact Or.inl (List.mem_singleton.mp hentry)
  | cons head t ih =>
    unfold insert at hentry
    split at hentry
    · exact (List.mem_cons.mp hentry).imp_right (List.mem_cons_of_mem _)
    · split at hentry
      · exact List.mem_cons.mp hentry
      · rcases List.mem_cons.mp hentry with rfl | hlater
        · exact Or.inr List.mem_cons_self
        · exact (ih hlater).imp_right (List.mem_cons_of_mem _)

theorem ascending_insert (key : String) (value : β) {t : Fields β} (ht : t.Ascending) :
    Ascending (insert key value t) := by
  induction t with
  | nil => exact List.pairwise_singleton _ _
  | cons head t ih =>
    obtain ⟨hhead, htail⟩ := List.pairwise_cons.mp ht
    unfold insert
    split
    next hsame =>
      exact List.pairwise_cons.mpr ⟨fun later hlater => hsame ▸ hhead later hlater, htail⟩
    next hother =>
      split
      next hless =>
        refine List.pairwise_cons.mpr ⟨fun later hlater => ?_, ht⟩
        rcases List.mem_cons.mp hlater with rfl | hin
        · exact hless
        · exact String.lt_trans hless (hhead later hin)
      next hnotLess =>
        refine List.pairwise_cons.mpr ⟨fun later hlater => ?_, ih htail⟩
        rcases mem_of_mem_insert hlater with rfl | hin
        · exact Std.lt_of_le_of_ne (String.not_lt.mp hnotLess) (Ne.symm hother)
        · exact hhead later hin

theorem ascending_foldl_insert (pairs : List (String × β)) {t : Fields β} (ht : t.Ascending) :
    Ascending (pairs.foldl (fun t entry => insert entry.1 entry.2 t) t) := by
  induction pairs generalizing t with
  | nil => exact ht
  | cons pair pairs ih => exact ih (ascending_insert pair.1 pair.2 ht)

theorem ascending_ofList (pairs : List (String × β)) : Ascending (ofList pairs) :=
  ascending_foldl_insert pairs .nil

theorem Ascending.erase {t : Fields β} (ht : t.Ascending) (key : String) :
    Ascending (t.erase key) :=
  ht.filter _

theorem Ascending.map {γ : Type} {t : Fields β} (ht : t.Ascending) (f : β → γ) :
    Ascending (t.map fun entry => (entry.1, f entry.2)) :=
  List.Pairwise.map _ (fun _ _ hless => hless) ht

/-- Names in ascending order are different. -/
theorem Ascending.nodup_keys {t : Fields β} (ht : t.Ascending) : t.keys.Nodup :=
  List.pairwise_map.mpr (ht.imp fun {a b} hless (hsame : a.1 = b.1) =>
    String.lt_irrefl b.1 (hsame ▸ hless))

/-- Where no name is used twice, each value is found. -/
theorem get?_of_mem {t : Fields β} (hnames : t.keys.Nodup) {entry : String × β}
    (hentry : entry ∈ t) : get? entry.1 t = some entry.2 := by
  induction t with
  | nil => cases hentry
  | cons head t ih =>
    obtain ⟨hnew, hrest⟩ := List.nodup_cons.mp hnames
    rcases List.mem_cons.mp hentry with rfl | hlater
    · rw [get?, if_pos rfl]
    · have hother : head.1 ≠ entry.1 := fun h => hnew (h ▸ List.mem_map_of_mem hlater)
      rw [get?, if_neg hother]
      exact ih hrest hlater

/-- The values of a list that is changed value by value. -/
theorem get?_map {γ : Type} (f : β → γ) (key : String) (t : Fields β) :
    get? key (t.map fun entry => (entry.1, f entry.2)) = (get? key t).map f := by
  induction t with
  | nil => rfl
  | cons entry t ih =>
    obtain ⟨name, value⟩ := entry
    by_cases hname : name = key
    · simp [get?, hname]
    · simp [get?, hname, ih]

end Fields

/-- A finite map from names to values: its entries in strictly ascending order of the
names. -/
@[ext] structure Table (β : Type) where
  entries : Fields β
  ascending : entries.Ascending

namespace Table

variable {β γ : Type}

/-- The table without entries. -/
def empty : Table β :=
  ⟨[], .nil⟩

instance : EmptyCollection (Table β) := ⟨empty⟩

instance : Inhabited (Table β) := ⟨∅⟩

/-- The table of a list of pairs; a repeated name keeps its last value. -/
def ofList (pairs : List (String × β)) : Table β :=
  ⟨Fields.ofList pairs, Fields.ascending_ofList pairs⟩

/-- Pairs may be written where a table is meant. -/
instance : Coe (List (String × β)) (Table β) := ⟨ofList⟩

/-- The value stored under a name. -/
def get? (key : String) (t : Table β) : Option β :=
  t.entries.get? key

/-- Whether a name is in use. -/
def hasKey (key : String) (t : Table β) : Bool :=
  t.entries.hasKey key

/-- A name is in use exactly when a value is stored under it. -/
theorem hasKey_eq_isSome_get? (key : String) (t : Table β) :
    hasKey key t = (get? key t).isSome :=
  Fields.hasKey_eq_isSome_get? key t.entries

theorem mem_of_get?_eq_some {key : String} {t : Table β} {value : β}
    (hvalue : get? key t = some value) : (key, value) ∈ t.entries :=
  Fields.mem_of_get?_eq_some hvalue

@[simp] theorem entries_empty : (∅ : Table β).entries = [] := rfl

@[simp] theorem get?_empty (key : String) : get? key (∅ : Table β) = none := rfl

/-- Stores a value under a name, in place of any earlier one. -/
def insert (key : String) (value : β) (t : Table β) : Table β :=
  ⟨t.entries.insert key value, Fields.ascending_insert key value t.ascending⟩

/-- Storing a value changes the entry of its name and no other one. -/
theorem get?_insert (key k : String) (value : β) (t : Table β) :
    get? k (insert key value t) = if key = k then some value else get? k t :=
  Fields.get?_insert key k value t.entries

/-- Removes a name. -/
def erase (key : String) (t : Table β) : Table β :=
  ⟨t.entries.erase key, t.ascending.erase key⟩

/-- Removing a name removes its entry and no other one. -/
theorem get?_erase (key k : String) (t : Table β) :
    get? k (erase key t) = if key = k then none else get? k t :=
  Fields.get?_erase key k t.entries

theorem entries_erase (key : String) (t : Table β) :
    (erase key t).entries = t.entries.filter fun entry => entry.1 != key := rfl

/-- The same names with other values. -/
def map (f : β → γ) (t : Table β) : Table γ :=
  ⟨t.entries.map fun entry => (entry.1, f entry.2), t.ascending.map f⟩

@[simp] theorem entries_map (f : β → γ) (t : Table β) :
    (t.map f).entries = t.entries.map fun entry => (entry.1, f entry.2) := rfl

theorem get?_map (f : β → γ) (key : String) (t : Table β) :
    get? key (t.map f) = (get? key t).map f :=
  Fields.get?_map f key t.entries

/-- The names in use, in ascending order. -/
def keys (t : Table β) : List String :=
  t.entries.keys

/-- A table lists no name twice. -/
theorem nodup_keys (t : Table β) : t.keys.Nodup :=
  t.ascending.nodup_keys

/-- Each entry of a table is found under its name. -/
theorem get?_of_mem {t : Table β} {entry : String × β} (hentry : entry ∈ t.entries) :
    get? entry.1 t = some entry.2 :=
  Fields.get?_of_mem t.nodup_keys hentry

/-- Whether a table has no entries. -/
def isEmpty (t : Table β) : Bool :=
  t.entries.isEmpty

end Table

end WorkflowGraph
