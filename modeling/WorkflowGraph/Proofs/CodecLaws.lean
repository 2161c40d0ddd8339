/-
# Laws of the binary encoding

Two properties of decoders that survive every way of putting decoders together. A
decoder reads a value from its bytes when it finds that value whatever comes after
them and leaves what comes after untouched. A decoder is extended by another when the
other finds the same value in longer input and leaves the additional bytes over.
Nothing is claimed here about the bytes that no encoder writes.
-/

import Mathlib.Algebra.Ring.Nat
import WorkflowGraph.Artifact.Codec

namespace WorkflowGraph.Codec

variable {α β : Type}

/-- The decoder finds the value in the bytes and stops where they end. -/
def Reads (d : Decode α) (bytes : Bytes) (a : α) : Prop :=
  ∀ tail, d (bytes ++ tail) = some (a, tail)

/-- What the first decoder finds, the second finds when more bytes follow. -/
def Extends (d e : Decode α) : Prop :=
  ∀ ⦃bytes a rest⦄, d bytes = some (a, rest) → ∀ tail, e (bytes ++ tail) = some (a, rest ++ tail)

/-! ## Putting decoders together -/

theorem bind_apply_of_eq_some {d : Decode α} {f : α → Decode β} {bytes rest : Bytes} {a : α}
    (h : d bytes = some (a, rest)) : (d >>= f) bytes = f a rest := by
  show Codec.bind d f bytes = f a rest
  rw [Codec.bind, h]

theorem bind_eq_some {d : Decode α} {f : α → Decode β} {bytes rest : Bytes} {b : β}
    (h : (d >>= f) bytes = some (b, rest)) :
    ∃ a middle, d bytes = some (a, middle) ∧ f a middle = some (b, rest) := by
  change Codec.bind d f bytes = some (b, rest) at h
  unfold Codec.bind at h
  split at h
  case h_1 a middle found => exact ⟨a, middle, found, h⟩
  case h_2 => cases h

theorem reads_pure (a : α) : Reads (Pure.pure a) [] a := by
  intro tail
  rfl

theorem Reads.bind {d : Decode α} {f : α → Decode β} {first second : Bytes} {a : α} {b : β}
    (ha : Reads d first a) (hb : Reads (f a) second b) : Reads (d >>= f) (first ++ second) b := by
  intro tail
  rw [List.append_assoc, bind_apply_of_eq_some (ha (second ++ tail))]
  exact hb tail

/-- The last of several values to be read. -/
theorem Reads.last {d : Decode α} {f : α → Decode β} {bytes : Bytes} {a : α} {b : β}
    (ha : Reads d bytes a) (hb : Reads (f a) [] b) : Reads (d >>= f) bytes b := by
  have h := ha.bind hb
  rwa [List.append_nil] at h

theorem Reads.map {d : Decode α} {bytes : Bytes} {a : α} (ha : Reads d bytes a) (f : α → β) :
    Reads (d >>= fun a => Pure.pure (f a)) bytes (f a) :=
  ha.last (reads_pure (f a))

theorem extends_pure (a : α) : Extends (Pure.pure a : Decode α) (Pure.pure a) := by
  intro bytes _ _ h tail
  cases h
  rfl

theorem extends_fail (e : Decode α) : Extends fail e := by
  intro _ _ _ h
  cases h

theorem Extends.bind {d e : Decode α} {f g : α → Decode β} (hde : Extends d e)
    (hfg : ∀ a, Extends (f a) (g a)) : Extends (d >>= f) (e >>= g) := by
  intro bytes b rest h tail
  obtain ⟨a, middle, found, h⟩ := bind_eq_some h
  rw [bind_apply_of_eq_some (hde found tail)]
  exact hfg a h tail

theorem Extends.map {d e : Decode α} (h : Extends d e) (f : α → β) :
    Extends (d >>= fun a => Pure.pure (f a)) (e >>= fun a => Pure.pure (f a)) :=
  h.bind fun a => extends_pure (f a)

/-- Bytes that an extended decoder reads to their end have no beginning that the
decoder accepts. -/
theorem Extends.eq_none_of_prefix {d e : Decode α} (h : Extends d e) {bytes front : Bytes} {a : α}
    (reads : Reads e bytes a) (cut : front <+: bytes) (proper : front ≠ bytes) :
    d front = none := by
  obtain ⟨back, rfl⟩ := cut
  cases found : d front with
  | none => rfl
  | some result =>
    obtain ⟨b, rest⟩ := result
    have long : e (front ++ back) = some (b, rest ++ back) := h found back
    have whole : e (front ++ back) = some (a, []) := by
      have h := reads []
      rwa [List.append_nil] at h
    have hrest : rest ++ back = [] := by
      rw [long] at whole
      exact congrArg Prod.snd (Option.some.inj whole)
    have hback : back = [] := (List.append_eq_nil_iff.mp hrest).2
    exact absurd (by rw [hback, List.append_nil]) proper

/-! ## Bytes -/

theorem reads_byte (b : UInt8) : Reads byte [b] b := by
  intro tail
  rfl

theorem extends_byte : Extends byte byte := by
  intro bytes _ _ h tail
  cases bytes with
  | nil => cases h
  | cons b bytes =>
    cases h
    rfl

theorem reads_take (bytes : Bytes) : Reads (take bytes.length) bytes bytes := by
  intro tail
  simp [take]

theorem extends_take (n : Nat) : Extends (take n) (take n) := by
  intro bytes front rest h tail
  unfold take at h ⊢
  split at h
  case isFalse => cases h
  case isTrue long =>
    cases h
    rw [if_pos (by rw [List.length_append]; omega), List.take_append_of_le_length long,
      List.drop_append_of_le_length long]

/-! ## Numbers -/

@[simp]
theorem length_littleEndian (width n : Nat) : (littleEndian width n).length = width := by
  induction width generalizing n with
  | zero => rfl
  | succ width ih => rw [littleEndian, List.length_cons, ih]

theorem ofLittleEndian_littleEndian {width n : Nat} (h : n < 256 ^ width) :
    ofLittleEndian (littleEndian width n) = n := by
  induction width generalizing n with
  | zero =>
    have h : n = 0 := by simpa using h
    rw [h, littleEndian, ofLittleEndian]
  | succ width ih =>
    have low : (UInt8.ofNat (n % 256)).toNat = n % 256 := by
      rw [UInt8.toNat_ofNat']
      omega
    have high : n / 256 < 256 ^ width := by
      rw [Nat.pow_succ] at h
      omega
    rw [littleEndian, ofLittleEndian, ih high, low]
    omega

theorem reads_fixed {width n : Nat} (h : n < 256 ^ width) :
    Reads (fixed width) (littleEndian width n) n := by
  have digits : Reads (take width) (littleEndian width n) (littleEndian width n) := by
    have h := reads_take (littleEndian width n)
    rwa [length_littleEndian] at h
  have h := digits.map ofLittleEndian
  rwa [ofLittleEndian_littleEndian ‹_›] at h

theorem extends_fixed (width : Nat) : Extends (fixed width) (fixed width) :=
  (extends_take width).map ofLittleEndian

/-- A number is read back at its own width or a larger one. -/
theorem reads_nat {width n : Nat} (small : n < 2 ^ 64) (fits : n < 2 ^ 32 ∨ 8 ≤ width) :
    Reads (decodeNat width) (encodeNat n) n := by
  unfold encodeNat
  split
  case isTrue tiny =>
    have marker : (UInt8.ofNat n).toNat = n := by
      rw [UInt8.toNat_ofNat']
      omega
    have below : UInt8.ofNat n < 251 := by
      rw [UInt8.lt_iff_toNat_lt, marker]
      exact tiny
    refine (reads_byte _).last ?_
    rw [if_pos below, marker]
    exact reads_pure n
  case isFalse =>
    split
    case isTrue narrow => exact (reads_byte 251).bind (reads_fixed narrow)
    case isFalse =>
      split
      case isTrue middle => exact (reads_byte 252).bind (reads_fixed middle)
      case isFalse wide =>
        have room : 8 ≤ width := fits.resolve_left wide
        refine (reads_byte 253).bind ?_
        rw [if_neg (by decide), if_neg (by decide), if_neg (by decide),
          if_pos (by simpa using room)]
        exact reads_fixed small

theorem extends_nat (width : Nat) : Extends (decodeNat width) (decodeNat width) := by
  refine extends_byte.bind fun marker => ?_
  split
  case isTrue => exact extends_pure _
  case isFalse =>
    split
    case isTrue => exact extends_fixed 2
    case isFalse =>
      split
      case isTrue => exact extends_fixed 4
      case isFalse =>
        split
        case isTrue => exact extends_fixed 8
        case isFalse => exact extends_fail _

theorem reads_length {n : Nat} (h : n < 2 ^ 64) : Reads decodeLength (encodeNat n) n :=
  reads_nat h (Or.inr (Nat.le_refl 8))

theorem reads_index {n : Nat} (h : n < 2 ^ 32) : Reads decodeIndex (encodeNat n) n :=
  reads_nat (by omega) (Or.inl h)

theorem extends_length : Extends decodeLength decodeLength := extends_nat 8

theorem extends_index : Extends decodeIndex decodeIndex := extends_nat 4

theorem encodeNat_ne_nil (n : Nat) : encodeNat n ≠ [] := by
  unfold encodeNat
  split
  · exact List.cons_ne_nil _ _
  · split
    · exact List.cons_ne_nil _ _
    · split <;> exact List.cons_ne_nil _ _

theorem length_encodeNat_pos (n : Nat) : 0 < (encodeNat n).length :=
  List.length_pos_iff.mpr (encodeNat_ne_nil n)

theorem reads_bool (b : Bool) : Reads decodeBool (encodeBool b) b := by
  cases b with
  | false => exact (reads_byte 0).bind (reads_pure false)
  | true => exact (reads_byte 1).bind (reads_pure true)

theorem extends_bool : Extends decodeBool decodeBool := by
  refine extends_byte.bind fun b => ?_
  split
  case isTrue => exact extends_pure _
  case isFalse =>
    split
    case isTrue => exact extends_pure _
    case isFalse => exact extends_fail _

/-- Every bit of a floating-point number is kept. -/
theorem reads_float (x : Binary64) : Reads decodeFloat (encodeFloat x) x := by
  have bits : Reads (fixed 8) (encodeFloat x) x.bits.toNat := reads_fixed x.bits.toNat_lt
  have h := bits.map fun n => (⟨UInt64.ofNat n⟩ : Binary64)
  rwa [UInt64.ofNat_toNat] at h

theorem extends_float : Extends decodeFloat decodeFloat :=
  (extends_fixed 8).map fun n => (⟨UInt64.ofNat n⟩ : Binary64)

/-! ## Texts -/

theorem byteArray_toList_loop (bytes : ByteArray) (i : Nat) (front : List UInt8) :
    ByteArray.toList.loop bytes i front = front.reverse ++ bytes.data.toList.drop i := by
  fun_induction ByteArray.toList.loop bytes i front with
  | case1 i front inside ih =>
    have byte : bytes.data.toList.drop i = bytes.get! i :: bytes.data.toList.drop (i + 1) := by
      have inside : i < bytes.data.toList.length := inside
      rw [List.drop_eq_getElem_cons inside]
      congr 1
      show _ = bytes.data[i]!
      rw [getElem!_pos bytes.data i inside, Array.getElem_toList]
    rw [ih, List.reverse_cons, List.append_assoc, byte]
    rfl
  | case2 i front outside =>
    have outside : bytes.data.toList.length ≤ i := Nat.le_of_not_lt outside
    rw [List.drop_eq_nil_of_le outside, List.append_nil]

theorem byteArray_toArray_toList (bytes : ByteArray) :
    (⟨bytes.toList.toArray⟩ : ByteArray) = bytes := by
  rw [ByteArray.toList, byteArray_toList_loop]
  rfl

theorem fromUTF8?_toUTF8 (s : String) : String.fromUTF8? ⟨s.toUTF8.toList.toArray⟩ = some s := by
  rw [byteArray_toArray_toList, String.toUTF8_eq_toByteArray, String.fromUTF8?,
    dif_pos s.isValidUTF8]
  rfl

theorem length_toList_toUTF8 (s : String) : s.toUTF8.toList.length = s.utf8ByteSize := by
  have h := congrArg ByteArray.size (byteArray_toArray_toList s.toUTF8)
  exact h

/-- The text has a length that can be written. -/
def TextFits (s : String) : Prop :=
  s.utf8ByteSize < 2 ^ 64

instance (s : String) : Decidable (TextFits s) :=
  inferInstanceAs (Decidable (s.utf8ByteSize < 2 ^ 64))

theorem reads_text {s : String} (h : TextFits s) : Reads decodeText (encodeText s) s := by
  have short : s.toUTF8.toList.length < 2 ^ 64 := by
    rw [length_toList_toUTF8]
    exact h
  refine (reads_length short).bind ((reads_take s.toUTF8.toList).last ?_)
  rw [fromUTF8?_toUTF8]
  exact reads_pure s

theorem extends_text : Extends decodeText decodeText := by
  refine extends_length.bind fun length => (extends_take length).bind fun bytes => ?_
  split
  case h_1 => exact extends_pure _
  case h_2 => exact extends_fail _

/-! ## Values that may be absent, lists and alternatives -/

theorem reads_option {encode : α → Bytes} {decode : Decode α} {a? : Option α}
    (h : ∀ a ∈ a?, Reads decode (encode a) a) :
    Reads (decodeOption decode) (encodeOption encode a?) a? := by
  cases a? with
  | none => exact (reads_bool false).bind (reads_pure none)
  | some a => exact (reads_bool true).bind ((h a rfl).map some)

theorem Extends.option {d e : Decode α} (h : Extends d e) :
    Extends (decodeOption d) (decodeOption e) := by
  refine extends_bool.bind fun present => ?_
  cases present with
  | false => exact extends_pure none
  | true => exact h.map some

theorem reads_many {encode : α → Bytes} {decode : Decode α} {items : List α}
    (h : ∀ a ∈ items, Reads decode (encode a) a) :
    Reads (decodeMany decode items.length) (items.flatMap encode) items := by
  induction items with
  | nil => exact reads_pure []
  | cons a items ih =>
    rw [List.flatMap_cons]
    have first : Reads decode (encode a) a := h a List.mem_cons_self
    have others := ih fun b hb => h b (List.mem_cons_of_mem a hb)
    exact first.bind (others.map (a :: ·))

/-- The list has a length that can be written, and so do all parts of its items. -/
structure ListFits (fits : α → Prop) (items : List α) : Prop where
  length : items.length < 2 ^ 64
  items : ∀ a ∈ items, fits a

theorem listFits_nil (fits : α → Prop) : ListFits fits [] :=
  ⟨Nat.two_pow_pos 64, fun _ h => absurd h List.not_mem_nil⟩

theorem listFits_singleton {fits : α → Prop} {a : α} (h : fits a) : ListFits fits [a] :=
  ⟨Nat.one_lt_two_pow (by decide), fun _ hb => List.mem_singleton.mp hb ▸ h⟩

theorem reads_list {encode : α → Bytes} {decode : Decode α} {fits : α → Prop} {items : List α}
    (h : ListFits fits items) (item : ∀ a, fits a → Reads decode (encode a) a) :
    Reads (decodeList decode) (encodeList encode items) items :=
  (reads_length h.length).bind (reads_many fun a ha => item a (h.items a ha))

theorem Extends.many {d e : Decode α} (h : Extends d e) (n : Nat) :
    Extends (decodeMany d n) (decodeMany e n) := by
  induction n with
  | zero => exact extends_pure []
  | succ n ih => exact h.bind fun a => ih.map (a :: ·)

theorem Extends.list {d e : Decode α} (h : Extends d e) :
    Extends (decodeList d) (decodeList e) :=
  extends_length.bind h.many

theorem reads_among [BEq α] [LawfulBEq α] {alternatives : List α} {a : α}
    (few : alternatives.length < 2 ^ 32) (h : a ∈ alternatives) :
    Reads (decodeAmong alternatives) (encodeAmong alternatives a) a := by
  have position : alternatives.idxOf a < alternatives.length := List.idxOf_lt_length_of_mem h
  have index : Reads decodeIndex (encodeAmong alternatives a) (alternatives.idxOf a) :=
    reads_index (by omega)
  have found : alternatives[alternatives.idxOf a]? = some a := by
    rw [List.getElem?_eq_getElem position, List.getElem_idxOf]
  refine index.last ?_
  rw [found]
  exact reads_pure a

theorem extends_among (alternatives : List α) :
    Extends (decodeAmong alternatives) (decodeAmong alternatives) := by
  refine extends_index.bind fun index => ?_
  split
  case h_1 => exact extends_pure _
  case h_2 => exact extends_fail _

end WorkflowGraph.Codec
