/-
# Handles are written back as they were read

A handle is read into a form that no platform owns and is written back for the same
platform and the same node. Nothing is lost on the way: a branch is found by its place
among the declared ones, and a number is only read from the very digits with which it
is written, so a spelling with leading zeros or with a number beyond 64 bits stays raw.
-/

import WorkflowGraph.Handle.Spelling

namespace WorkflowGraph

namespace Text

theorem toNat_of_isDigit {c : Char} (hc : isDigit c = true) :
    c.toNat = 48 + digitValue c ∧ digitValue c < 10 := by
  obtain ⟨hzero, hnine⟩ : '0' ≤ c ∧ c ≤ '9' := by simpa [isDigit] using hc
  have hlow : 48 ≤ c.toNat := UInt32.le_iff_toNat_le.mp hzero
  have hhigh : c.toNat ≤ 57 := UInt32.le_iff_toNat_le.mp hnine
  have hvalue : digitValue c = c.toNat - 48 := rfl
  omega

/-- A digit is the one that is written for its value. -/
theorem digitChar_digitValue {c : Char} (hc : isDigit c = true) :
    Nat.digitChar (digitValue c) = c := by
  obtain ⟨hcode, hvalue⟩ := toNat_of_isDigit hc
  apply Char.toNat_inj.mp
  rw [Nat.toNat_digitChar_of_lt_ten hvalue, hcode]

/-- Digits behind the digits of a number other than zero continue it. -/
theorem digitsOfNat_append_digits {cs : List Char} (hcs : ∀ c ∈ cs, isDigit c = true) :
    ∀ n, 0 < n →
      digitsOfNat n ++ cs = digitsOfNat (cs.foldl (fun n c => 10 * n + digitValue c) n) := by
  induction cs with
  | nil =>
      intro n _
      rw [List.append_nil, List.foldl_nil]
  | cons c cs ih =>
      intro n hn
      obtain ⟨hc, hrest⟩ := List.forall_mem_cons.mp hcs
      have hvalue := (toNat_of_isDigit hc).2
      have hnext : digitsOfNat (10 * n + digitValue c) = digitsOfNat n ++ [c] := by
        have hjoin := Nat.toDigits_append_toDigits (by decide : 1 < 10) hn hvalue
        rw [Nat.toDigits_of_lt_base hvalue, digitChar_digitValue hc] at hjoin
        exact hjoin.symm
      calc
        digitsOfNat n ++ c :: cs = digitsOfNat (10 * n + digitValue c) ++ cs := by
          rw [hnext, List.append_assoc, List.singleton_append]
        _ = digitsOfNat ((c :: cs).foldl (fun n c => 10 * n + digitValue c) n) :=
          ih hrest _ (by omega)

/-- Digits are those of the number that they spell, unless a zero stands in front of
others. -/
theorem digitsOfNat_natOfDigits {c : Char} {cs : List Char}
    (hdigits : ∀ d ∈ c :: cs, isDigit d = true) (hlead : cs = [] ∨ c ≠ '0') :
    digitsOfNat (natOfDigits (c :: cs)) = c :: cs := by
  obtain ⟨hc, hrest⟩ := List.forall_mem_cons.mp hdigits
  have hsingle : digitsOfNat (digitValue c) = [c] := by
    rw [digitsOfNat, Nat.toDigits_of_lt_base (toNat_of_isDigit hc).2, digitChar_digitValue hc]
  have hspelled : natOfDigits (c :: cs) =
      cs.foldl (fun n c => 10 * n + digitValue c) (digitValue c) := by
    rw [natOfDigits, List.foldl_cons, Nat.mul_zero, Nat.zero_add]
  rw [hspelled]
  rcases hlead with rfl | hnonzero
  · exact hsingle
  · have hpositive : 0 < digitValue c := by
      apply Nat.pos_of_ne_zero
      intro hvalue
      apply hnonzero
      rw [← digitChar_digitValue hc, hvalue]
      rfl
    rw [← digitsOfNat_append_digits hrest _ hpositive, hsingle, List.singleton_append]

theorem ofInt_natCast (n : Nat) : ofInt n = String.ofList (digitsOfNat n) := rfl

theorem eq_append_of_dropStart? {start cs rest : List Char}
    (hdrop : dropStart? start cs = some rest) : cs = start ++ rest := by
  induction start generalizing cs with
  | nil => exact Option.some.inj hdrop
  | cons p ps ih =>
      cases cs with
      | nil => cases hdrop
      | cons c cs =>
          unfold dropStart? at hdrop
          split at hdrop
          next hsame => rw [hsame, ih hdrop, List.cons_append]
          next => cases hdrop

end Text

namespace Handle

/-- An index is only read from the digits with which it is written. -/
theorem eq_digitsOfNat_of_index? {digits : List Char} {n : Nat}
    (hindex : index? digits = some n) : digits = Text.digitsOfNat n := by
  unfold index? at hindex
  split at hindex
  next => cases hindex
  next hdigits =>
      split at hindex
      next => cases hindex
      next hlead =>
          dsimp only at hindex
          split at hindex
          next =>
              obtain rfl := Option.some.inj hindex
              cases digits with
              | nil => simp at hdigits
              | cons c cs =>
                  refine (Text.digitsOfNat_natOfDigits ?_ ?_).symm
                  · simpa using hdigits
                  · cases cs with
                    | nil => exact Or.inl rfl
                    | cons d ds => exact Or.inr (by simpa using hlead)
          next => cases hindex

/-- A number is only read from the spelling with which it is written. -/
theorem numbered_of_indexAfter? {word spelling : String} {n : Nat}
    (hindex : indexAfter? word spelling = some n) : numbered word n = spelling := by
  obtain ⟨digits, hdrop, hdigits⟩ := Option.bind_eq_some_iff.mp hindex
  obtain rfl := eq_digitsOfNat_of_index? hdigits
  apply String.toList_injective
  rw [Text.eq_append_of_dropStart? hdrop, numbered, String.toList_append, Text.ofInt_natCast,
    String.toList_ofList]

/-- What stands at the place at which an id is found has that id, also when others have
it too. -/
theorem exists_of_position? {α : Type} (id : α → String) {items : List α} {s : String}
    {k : Nat} (hplace : position? (items.map id) s = some k) :
    ∃ item, items[k]? = some item ∧ id item = s := by
  obtain ⟨hk, hfound, -⟩ := List.findIdx?_eq_some_iff_getElem.mp hplace
  rw [List.length_map] at hk
  rw [List.getElem_map] at hfound
  exact ⟨items[k], List.getElem?_eq_getElem hk, eq_of_beq hfound⟩

/-- Dify: a branch has the id of the first case or class that declares the spelling. The
word for the first branch is only read where no case is declared, so no declared id can
take its place on the way back. -/
theorem spelling?_ofDify (s : String) (source : Node) :
    spelling? .dify (ofDify s source) source = some s := by
  unfold ofDify
  split
  next hdefault => exact congrArg some (eq_of_beq hdefault).symm
  next =>
      split
      next cases hconfig =>
          split
          next k hplace =>
              obtain ⟨c, hc, hid⟩ := exists_of_position? BranchCase.id hplace
              simp [spelling?, toDify, hconfig, hc, hid]
          next =>
              split
              next hfalse => exact congrArg some (eq_of_beq hfalse).symm
              next =>
                  split
                  next htrue =>
                      obtain ⟨hspelling, hnone⟩ := Bool.and_eq_true_iff.mp htrue
                      obtain rfl := List.isEmpty_iff.mp hnone
                      rw [eq_of_beq hspelling]
                      simp [spelling?, toDify, hconfig]
                  next => rfl
      next c hconfig =>
          split
          next k hplace =>
              obtain ⟨label, hlabel, hid⟩ := exists_of_position? ClassLabel.id hplace
              simp [spelling?, toDify, hconfig, hlabel, hid]
          next => rfl
      next => rfl

/-- Coze: the first branch of a condition has a word of its own and no number, and for
that reason the number zero is not read there. -/
theorem spelling?_ofCoze (s : String) (source : Node) :
    spelling? .coze (ofCoze s source) source = some s := by
  unfold ofCoze
  split
  next cases hconfig =>
      split
      next htrue =>
          rw [eq_of_beq htrue]
          simp [spelling?, toCoze?, hconfig]
      next =>
          split
          next hfalse =>
              rw [eq_of_beq hfalse]
              simp [spelling?, toCoze?, hconfig]
          next =>
              split
              next n hindex =>
                  split
                  next hpositive =>
                      obtain ⟨m, rfl⟩ := Nat.exists_eq_add_of_le' hpositive
                      rw [← numbered_of_indexAfter? hindex]
                      simp [spelling?, toCoze?, hconfig]
                  next => rfl
              next => rfl
  next c hconfig =>
      split
      next hdefault =>
          rw [eq_of_beq hdefault]
          simp [spelling?, toCoze?, hconfig]
      next =>
          split
          next n hindex =>
              rw [← numbered_of_indexAfter? hindex]
              simp [spelling?, toCoze?, hconfig]
          next => rfl
  next => rfl

/-- Bailian: what is read depends on the kind of the node, and what is written does not. -/
theorem spelling?_ofBailian (s : String) (source : Node) :
    spelling? .bailian (ofBailian s source) source = some s := by
  unfold ofBailian
  split
  next hout => exact congrArg some (eq_of_beq hout).symm
  next =>
      split
      next => rfl
      next =>
          split
          next helse => exact congrArg some (eq_of_beq helse).symm
          next =>
              split
              next n hindex => exact congrArg some (numbered_of_indexAfter? hindex)
              next => rfl

/-- Every spelling but the empty one is written back exactly as it was read, for every
platform and every node that an edge may leave. -/
theorem spelling?_ofSpelling (p : Platform) (source : Node) (s : String) (hs : s ≠ "") :
    spelling? p (ofSpelling p (some s) source) source = some s := by
  have hsome : s.isEmpty = false := by simpa using hs
  unfold ofSpelling
  simp only [hsome, Bool.false_eq_true, if_false]
  cases p with
  | dify => exact spelling?_ofDify s source
  | coze => exact spelling?_ofCoze s source
  | bailian => exact spelling?_ofBailian s source

theorem spelling?_ofSpelling_leadingZeros :
    "true_007" ≠ "" ∧
      spelling? .coze
          (ofSpelling .coze (some "true_007")
            { Node.ofConfig "n" "N" (.condition [⟨"a", .and, []⟩, ⟨"a", .and, []⟩]) with
              kind := .llm })
          { Node.ofConfig "n" "N" (.condition [⟨"a", .and, []⟩, ⟨"a", .and, []⟩]) with
            kind := .llm } = some "true_007" :=
  ⟨by decide, spelling?_ofSpelling .coze _ "true_007" (by decide)⟩

end Handle

end WorkflowGraph
