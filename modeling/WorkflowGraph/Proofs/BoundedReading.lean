/-
# Numbers that a reader finds

A JSON text holds whole numbers of 64 bits and finite numbers, and no list that is longer
than a machine word can count. What holds of every number in a value holds of every number
that a reader makes of it. There is one law for every way of putting readers together, and
the readers of exports and of parameters are put together in these ways.
-/

import Mathlib.Algebra.Group.Int.Defs
import WorkflowGraph.Proofs.ExportedNodes

namespace WorkflowGraph

namespace Binary64

/-- A magnitude below that of infinity is the magnitude of a finite number. -/
theorem isFinite_ofMagnitude {magnitude : Nat} (negative : Bool)
    (hsmall : magnitude < infiniteMagnitude) :
    (ofMagnitude negative magnitude).isFinite = true := by
  have hbound : magnitude / 2 ^ 52 < 2047 := Nat.div_lt_of_lt_mul (by
    rw [Nat.mul_comm]
    exact hsmall)
  have hlimit : magnitude < 2047 * 2 ^ 52 := hsmall
  have hexponent : (ofMagnitude negative magnitude).exponentBits = magnitude / 2 ^ 52 := by
    unfold exponentBits ofMagnitude
    rw [UInt64.toNat_ofNat']
    cases negative with
    | false =>
        show (0 + magnitude) % 2 ^ 64 / 2 ^ 52 % 2 ^ 11 = magnitude / 2 ^ 52
        omega
    | true =>
        show (2 ^ 63 + magnitude) % 2 ^ 64 / 2 ^ 52 % 2 ^ 11 = magnitude / 2 ^ 52
        omega
  rw [isFinite, hexponent, bne_iff_ne]
  exact Nat.ne_of_lt hbound

theorem roundQuotient_le {num den bound : Nat} (hbound : num < bound * den) :
    roundQuotient num den ≤ bound := by
  have hquotient : num / den < bound := Nat.div_lt_of_lt_mul (by rwa [Nat.mul_comm])
  unfold roundQuotient
  dsimp only
  split
  · omega
  · split <;> omega

theorem quotientLog2_one {n : Nat} (hn : n ≠ 0) : quotientLog2 n 1 = n.log2 := by
  have hreaches : 1 * Nat.pow 2 n.log2 ≤ n := by
    rw [Nat.one_mul]
    exact Nat.log2_self_le hn
  have hlog : ((n.log2 : Int) - Nat.log2 1) = Int.ofNat n.log2 := by
    simp [show Nat.log2 1 = 0 by decide]
  unfold quotientLog2
  rw [hlog]
  simp only [hreaches, decide_true, if_true]
  rfl

/-- A number scaled by its own size has a significand of at most 53 bits, and one bit more
if it is rounded up. -/
theorem scaled_le {n : Nat} (q : Int) (hq : q = (n.log2 : Int) - 52) :
    (match q with
      | .ofNat k => roundQuotient n (1 * Nat.pow 2 k)
      | .negSucc k => roundQuotient (n * Nat.pow 2 (k + 1)) 1) ≤ 2 ^ 53 := by
  have hupper : n < 2 ^ (n.log2 + 1) := Nat.lt_log2_self
  cases q with
  | ofNat k =>
      have hsize : n.log2 + 1 = 53 + k := by
        rw [Int.ofNat_eq_natCast] at hq
        omega
      rw [hsize, Nat.pow_add] at hupper
      exact roundQuotient_le (by rwa [Nat.one_mul])
  | negSucc k =>
      have hsize : 53 = (n.log2 + 1) + (k + 1) := by omega
      have hscaled : n * 2 ^ (k + 1) < 2 ^ 53 := by
        rw [hsize, Nat.pow_add 2 (n.log2 + 1)]
        exact Nat.mul_lt_mul_of_pos_right hupper (Nat.two_pow_pos _)
      exact roundQuotient_le (by rwa [Nat.mul_one])

/-- A whole number that fits in 64 bits is nearest to a finite number. -/
theorem isFinite_ofInt {i : Int} (hsmall : i.natAbs < 2 ^ 64) : (ofInt i).isFinite = true := by
  unfold ofInt
  split
  · exact isFinite_ofMagnitude false (by decide)
  · next hzero =>
      have hn : i.natAbs ≠ 0 := Int.natAbs_ne_zero.mpr hzero
      have hlog : i.natAbs.log2 < 64 := (Nat.log2_lt hn).mpr hsmall
      have hplace : max ((i.natAbs.log2 : Int) - 52) (-1074) = i.natAbs.log2 - 52 := by omega
      have hscaled := scaled_le _ hplace
      unfold ofQuotient
      rw [quotientLog2_one hn]
      refine isFinite_ofMagnitude _ (Nat.lt_of_le_of_lt (Nat.min_le_right _ _) ?_)
      rw [hplace] at hscaled ⊢
      have hexponent : ((i.natAbs.log2 : Int) - 52 + 1074).toNat ≤ 1085 := by omega
      calc ((i.natAbs.log2 : Int) - 52 + 1074).toNat * Nat.pow 2 52 + _
          ≤ 1085 * Nat.pow 2 52 + 2 ^ 53 :=
            Nat.add_le_add (Nat.mul_le_mul_right _ hexponent) hscaled
        _ < infiniteMagnitude := by decide

end Binary64

/-- The number is a whole number of 64 bits, with or without a sign, or it is finite. -/
def Number.isBounded : Number → Bool
  | .int i => decide (-2 ^ 63 ≤ i ∧ i < 2 ^ 64)
  | .float x => x.isFinite

theorem Number.isFinite_toFloat {n : Number} (hn : n.isBounded = true) :
    n.toFloat.isFinite = true := by
  cases n with
  | int i =>
      obtain ⟨hlower, hupper⟩ := of_decide_eq_true hn
      exact Binary64.isFinite_ofInt (by omega)
  | float x => exact hn

namespace Json

mutual
/-- Every number in the value has a notation in JSON, and the length of every list in it
fits in 64 bits. -/
def isBounded : Json → Bool
  | .num n => n.isBounded
  | .arr items => decide (items.length < 2 ^ 64) && itemsBounded items
  | .obj fields => fieldsBounded fields
  | _ => true

/-- Every value of a list is bounded. -/
def itemsBounded : List Json → Bool
  | [] => true
  | j :: js => j.isBounded && itemsBounded js

/-- The value of every field of a list is bounded. -/
def fieldsBounded : List (String × Json) → Bool
  | [] => true
  | (_, j) :: fs => j.isBounded && fieldsBounded fs
end

theorem itemsBounded_iff (items : List Json) :
    itemsBounded items = true ↔ ∀ j ∈ items, j.isBounded = true := by
  induction items with
  | nil => simp [itemsBounded]
  | cons j items ih => simp [itemsBounded, ih]

theorem fieldsBounded_iff (fields : List (String × Json)) :
    fieldsBounded fields = true ↔ ∀ e ∈ fields, e.2.isBounded = true := by
  induction fields with
  | nil => simp [fieldsBounded]
  | cons e fields ih =>
      obtain ⟨key, j⟩ := e
      rw [fieldsBounded, Bool.and_eq_true, ih, List.forall_mem_cons]

@[simp] theorem isBounded_arr (items : List Json) : (arr items).isBounded = true ↔
    items.length < 2 ^ 64 ∧ ∀ j ∈ items, j.isBounded = true := by
  rw [isBounded, Bool.and_eq_true, decide_eq_true_iff, itemsBounded_iff]

@[simp] theorem isBounded_obj (fields : List (String × Json)) :
    (obj fields).isBounded = true ↔ ∀ e ∈ fields, e.2.isBounded = true := by
  rw [isBounded, fieldsBounded_iff]

@[simp] theorem isBounded_null : null.isBounded = true := by
  simp [isBounded]

@[simp] theorem isBounded_bool (b : Bool) : (bool b).isBounded = true := by
  simp [isBounded]

@[simp] theorem isBounded_str (s : String) : (str s).isBounded = true := by
  simp [isBounded]

/-- The value is bounded, if there is one. -/
def OptionBounded (j : Option Json) : Prop :=
  ∀ v ∈ j, v.isBounded = true

theorem optionBounded_tableGet? {t : List (String × Json)}
    (ht : ∀ e ∈ t, e.2.isBounded = true) (key : String) : OptionBounded (Fields.get? key t) := by
  intro v hv
  exact ht (key, v) (Fields.mem_of_get?_eq_some hv)

theorem optionBounded_get? {j : Json} (hj : j.isBounded = true) (key : String) :
    OptionBounded (j.get? key) := by
  cases j with
  | obj fields => exact optionBounded_tableGet? ((isBounded_obj fields).mp hj) key
  | _ => nofun

theorem optionBounded_at? {j : Json} (hj : j.isBounded = true) (path : List String) :
    OptionBounded (j.at? path) := by
  induction path generalizing j with
  | nil =>
      intro v hv
      obtain rfl := Option.some.inj hv
      exact hj
  | cons key path ih =>
      intro v hv
      obtain ⟨inner, hinner, hrest⟩ := Option.bind_eq_some_iff.mp hv
      exact ih (optionBounded_get? hj key inner hinner) v hrest

namespace Reader

variable {α σ : Type}

theorem exists_of_map_eq_ok {β : Type} {a? : Except ReadError α} {f : α → β} {b : β}
    (hok : a?.map f = .ok b) : ∃ a, a? = .ok a ∧ f a = b := by
  cases a? with
  | error e => cases hok
  | ok a => exact ⟨a, rfl, Except.ok.inj hok⟩

theorem exists_of_bind_eq_ok {β : Type} {a? : Except ReadError α} {f : α → Except ReadError β}
    {b : β} (hok : a?.bind f = .ok b) : ∃ a, a? = .ok a ∧ f a = .ok b := by
  cases a? with
  | error e => cases hok
  | ok a => exact ⟨a, rfl, hok⟩

/-- Whatever the reader makes of a bounded value has the property. -/
def Yields (read : Reader α) (P : α → Prop) : Prop :=
  ∀ j a, j.isBounded = true → read j = .ok a → P a

theorem yields_any : Yields any fun j => j.isBounded = true := by
  intro j a hj hread
  obtain rfl := Except.ok.inj hread
  exact hj

theorem yields_true (read : Reader α) : Yields read fun _ => True :=
  fun _ _ _ _ => trivial

theorem yields_float : Yields float fun x => x.isFinite = true := by
  intro j x hj hread
  cases j with
  | num n =>
      obtain rfl := Except.ok.inj hread
      exact n.isFinite_toFloat (by rwa [isBounded] at hj)
  | _ => cases hread

variable {read : Reader α} {P : α → Prop}

theorem Yields.option (hread : Yields read P) :
    Yields (option read) fun a? => ∀ a ∈ a?, P a := by
  intro j a? hj hok a ha
  unfold Reader.option at hok
  split at hok
  · obtain rfl := Except.ok.inj hok
    cases ha
  · obtain ⟨found, hfound, rfl⟩ := exists_of_map_eq_ok hok
    obtain rfl := Option.some.inj ha
    exact hread _ _ hj hfound

theorem all_yields (hread : Yields read P) {items : List Json} {as : List α}
    (hitems : ∀ j ∈ items, j.isBounded = true) (hok : all read items = .ok as) :
    as.length = items.length ∧ ∀ a ∈ as, P a := by
  induction items generalizing as with
  | nil =>
      obtain rfl := Except.ok.inj hok
      exact ⟨rfl, nofun⟩
  | cons j items ih =>
      obtain ⟨a, ha, hrest⟩ := exists_of_bind_eq_ok hok
      obtain ⟨others, hothers, hlast⟩ := exists_of_bind_eq_ok hrest
      obtain rfl := Except.ok.inj hlast
      obtain ⟨hfirst, hitems⟩ := List.forall_mem_cons.mp hitems
      obtain ⟨hlength, hall⟩ := ih hitems hothers
      exact ⟨by rw [List.length_cons, List.length_cons, hlength],
        List.forall_mem_cons.mpr ⟨hread j a hfirst ha, hall⟩⟩

/-- A list that was read is no longer than the one it was read from. -/
theorem Yields.list (hread : Yields read P) :
    Yields (list read) fun as => as.length < 2 ^ 64 ∧ ∀ a ∈ as, P a := by
  intro j as hj hok
  cases j with
  | arr items =>
      obtain ⟨hsmall, hitems⟩ := (isBounded_arr items).mp hj
      obtain ⟨hlength, hall⟩ := all_yields hread hitems hok
      exact ⟨hlength ▸ hsmall, hall⟩
  | _ => cases hok

theorem allFields_yields (hread : Yields read P) {fields : List (String × Json)} {t : Fields α}
    (hfields : ∀ e ∈ fields, e.2.isBounded = true) (hok : allFields read fields = .ok t) :
    ∀ e ∈ t, P e.2 := by
  induction fields generalizing t with
  | nil =>
      obtain rfl := Except.ok.inj hok
      nofun
  | cons field fields ih =>
      obtain ⟨a, ha, hrest⟩ := exists_of_bind_eq_ok hok
      obtain ⟨others, hothers, hlast⟩ := exists_of_bind_eq_ok hrest
      obtain rfl := Except.ok.inj hlast
      obtain ⟨hfirst, hfields⟩ := List.forall_mem_cons.mp hfields
      exact List.forall_mem_cons.mpr ⟨hread field.2 a hfirst ha, ih hfields hothers⟩

theorem Yields.fields (hread : Yields read P) :
    Yields (fields read) fun t => ∀ e ∈ t, P e.2 := by
  intro j t hj hok
  cases j with
  | obj fields => exact allFields_yields hread ((isBounded_obj fields).mp hj) hok
  | _ => cases hok

theorem Yields.table (hread : Yields read P) :
    Yields (table read) fun t => ∀ e ∈ t.entries, P e.2 := by
  intro j t hj hok
  obtain ⟨fields, hfields, rfl⟩ := exists_of_map_eq_ok hok
  exact fun e he => hread.fields j fields hj hfields e (Fields.mem_of_mem_ofList he)

theorem Yields.mono {Q : α → Prop} (hread : Yields read P) (himplies : ∀ a, P a → Q a) :
    Yields read Q :=
  fun j a hj hok => himplies a (hread j a hj hok)

theorem yields_nested {readWithin : Nat → Reader α} (hread : ∀ n, Yields (readWithin n) P) :
    Yields (nested readWithin) P :=
  fun j => hread j.depth j

/-- Storing a bounded value keeps the property of a record. -/
def Field.Keeps (f : Field σ) (Q : σ → Prop) : Prop :=
  ∀ j s s', j.isBounded = true → Q s → f.store j s = .ok s' → Q s'

theorem Field.keeps_ofReader {absence : Absence} {name : String} {put : α → σ → σ}
    {Q : σ → Prop} (hread : Yields read P) (hput : ∀ a s, P a → Q s → Q (put a s)) :
    (Field.ofReader absence name read put).Keeps Q := by
  intro j s s' hj hs hok
  obtain ⟨a, ha, rfl⟩ := exists_of_map_eq_ok hok
  exact hput a s (hread j a hj ha) hs

/-- A field that the property does not speak of keeps it, whatever its value is. -/
theorem Field.keeps_of_put {absence : Absence} {name : String} (read : Reader α)
    {put : α → σ → σ} {Q : σ → Prop} (hput : ∀ a s, Q s → Q (put a s)) :
    (Field.ofReader absence name read put).Keeps Q :=
  Field.keeps_ofReader (yields_true read) fun a s _ => hput a s

theorem entries_keeps {fields : List (Field σ)} {Q : σ → Prop}
    (hfields : ∀ f ∈ fields, f.Keeps Q) (es : List (String × Json))
    (hes : ∀ e ∈ es, e.2.isBounded = true) :
    ∀ seen s s', Q s → entries fields seen es s = .ok s' → Q s' := by
  induction es with
  | nil =>
      intro seen s s' hs hok
      unfold entries at hok
      split at hok
      · cases hok
      · exact Except.ok.inj hok ▸ hs
  | cons e es ih =>
      obtain ⟨hfirst, hes⟩ := List.forall_mem_cons.mp hes
      intro seen s s' hs hok
      unfold entries at hok
      split at hok
      · exact ih hes _ s s' hs hok
      · next f hfound =>
          split at hok
          · cases hok
          · split at hok
            · next stored hstored =>
                have hkeeps := hfields f (List.mem_of_find?_eq_some hfound)
                exact ih hes _ stored s' (hkeeps e.2 s stored hfirst hs hstored) hok
            · cases hok

theorem items_keeps {name : String} {size length : Nat} {Q : σ → Prop}
    (fields : List (Field σ)) (hfields : ∀ f ∈ fields, f.Keeps Q) :
    ∀ (js : List Json), (∀ j ∈ js, j.isBounded = true) → ∀ index s s', Q s →
      items name size length index fields js s = .ok s' → Q s' := by
  induction fields with
  | nil =>
      intro js _ index s s' hs hok
      cases js with
      | nil => exact Except.ok.inj hok ▸ hs
      | cons j js => cases hok
  | cons f fields ih =>
      obtain ⟨hfirst, hfields⟩ := List.forall_mem_cons.mp hfields
      intro js hjs index s s' hs hok
      cases js with
      | nil =>
          unfold items at hok
          split at hok
          · exact ih hfields [] nofun _ s s' hs hok
          · cases hok
      | cons j js =>
          obtain ⟨hj, hjs⟩ := List.forall_mem_cons.mp hjs
          unfold items at hok
          split at hok
          · next stored hstored =>
              exact ih hfields js hjs _ stored s' (hfirst j s stored hj hs hstored) hok
          · cases hok

/-- What every field of a record keeps holds of the record. -/
theorem yields_record {name : String} {initial : σ} {fields : List (Field σ)} {Q : σ → Prop}
    (hinitial : Q initial) (hfields : ∀ f ∈ fields, f.Keeps Q) :
    Yields (record name initial fields) Q := by
  intro j s hj hok
  cases j with
  | obj es => exact entries_keeps hfields es ((isBounded_obj es).mp hj) [] initial s hinitial hok
  | arr js =>
      exact items_keeps fields hfields js ((isBounded_arr js).mp hj).2 0 initial s hinitial hok
  | _ => cases hok

end Reader

end Json

end WorkflowGraph
