/-
# Branches are read as they were written

The other direction of the translation: a branch that is written for a platform means the
same branch when its spelling is read again. This asks for more than the way back of a
spelling, because a declared id may be equal to a reserved word, or to another id, and a
node need not be able to take every branch. The branches for which it holds are listed
here platform by platform. On them no two branches share a spelling.
-/

import WorkflowGraph.Proofs.HandleSpelling

namespace WorkflowGraph

namespace Text

theorem natOfDigits_digitsOfNat (n : Nat) : natOfDigits (digitsOfNat n) = n :=
  Nat.ofDigitChars_ten_toDigits

theorem isDigit_of_mem_digitsOfNat {n : Nat} {c : Char} (hc : c ∈ digitsOfNat n) :
    isDigit c = true := by
  have hdigit := Nat.isDigit_of_mem_toDigits (by decide) (Nat.le_refl 10) hc
  obtain ⟨hlow, hhigh⟩ : 48 ≤ c.val ∧ c.val ≤ 57 := by simpa [Char.isDigit] using hdigit
  exact Bool.and_eq_true_iff.mpr ⟨decide_eq_true hlow, decide_eq_true hhigh⟩

/-- The digits of a number other than zero do not begin with a zero. -/
theorem head?_digitsOfNat_ne_zero (n : Nat) (hn : 0 < n) :
    (digitsOfNat n).head? ≠ some '0' := by
  induction n using Nat.strongRecOn with
  | ind n ih =>
      by_cases hsmall : n < 10
      · rw [digitsOfNat, Nat.toDigits_of_lt_base hsmall]
        intro hzero
        have hcode := congrArg Char.toNat (Option.some.inj hzero)
        rw [Nat.toNat_digitChar_of_lt_ten hsmall] at hcode
        have : '0'.toNat = 48 := rfl
        omega
      · have hshorter := ih (n / 10) (by omega) (by omega)
        rw [digitsOfNat, Nat.toDigits_of_base_le (by decide) (by omega), List.head?_append]
        cases hfirst : (Nat.toDigits 10 (n / 10)).head? with
        | none => exact absurd (List.head?_eq_none_iff.mp hfirst) Nat.toDigits_ne_nil
        | some c => rwa [digitsOfNat, hfirst] at hshorter

theorem dropStart?_append (start rest : List Char) :
    dropStart? start (start ++ rest) = some rest := by
  induction start with
  | nil => rfl
  | cons c start ih => rw [List.cons_append, dropStart?, if_pos rfl, ih]

end Text

namespace Handle

/-- An index is read from its own digits if it fits in 64 bits. -/
theorem index?_digitsOfNat (n : Nat) :
    index? (Text.digitsOfNat n) = if n < Nat.pow 2 64 then some n else none := by
  have hsome : (Text.digitsOfNat n).isEmpty = false := by
    simp [Text.digitsOfNat, Nat.toDigits_ne_nil]
  have hdigits : (Text.digitsOfNat n).all Text.isDigit = true :=
    List.all_eq_true.mpr fun _ hc => Text.isDigit_of_mem_digitsOfNat hc
  have hlead : (1 < (Text.digitsOfNat n).length &&
      (Text.digitsOfNat n).head? == some '0') = false := by
    rcases Nat.eq_zero_or_pos n with rfl | hpositive
    · rfl
    · simp [Text.head?_digitsOfNat_ne_zero n hpositive]
  simp [index?, hsome, hdigits, hlead, Text.natOfDigits_digitsOfNat]

/-- A number is read from the spelling with which it is written if it fits in 64 bits. -/
theorem indexAfter?_numbered_eq (word : String) (n : Nat) :
    indexAfter? word (numbered word n) = if n < Nat.pow 2 64 then some n else none := by
  rw [indexAfter?, numbered, String.toList_append, Text.dropStart?_append, Text.ofInt_natCast,
    String.toList_ofList]
  exact index?_digitsOfNat n

theorem indexAfter?_numbered (word : String) {n : Nat} (hn : n < Nat.pow 2 64) :
    indexAfter? word (numbered word n) = some n := by
  rw [indexAfter?_numbered_eq, if_pos hn]

/-- A numbered spelling is longer than its word, and no text that is not can be equal to
it. -/
theorem numbered_ne {word s : String} (hs : s.length ≤ word.length) (n : Nat) :
    numbered word n ≠ s := by
  rintro rfl
  have hdigits : 0 < (Text.digitsOfNat n).length := Nat.length_toDigits_pos
  rw [numbered, String.length_append, Text.ofInt_natCast, String.length_ofList] at hs
  omega

/-- The ids of the branches that a node declares, in order. -/
def declaredIds (source : Node) : List String :=
  match source.config with
  | .condition cases => cases.map BranchCase.id
  | .classifier c => c.classes.map ClassLabel.id
  | _ => []

/-- Ids that name one branch each and that no reader takes for flow without a condition. -/
structure Distinctive (ids : List String) : Prop where
  nonempty : "" ∉ ids
  conditional : "source" ∉ ids
  nodup : ids.Nodup

/-- The handles that a node can leave by on a platform. On Dify a branch is known by its
declared id, and a condition without branches still has the one for the case that it
holds. The other platforms number branches, and do not ask how many there are. -/
inductive Leaves : Platform → Node → Handle → Prop
  | default {p : Platform} {source : Node} : Leaves p source .default
  | numbered {p : Platform} {source : Node} {k : Nat} :
      p ≠ .dify → source.kind.isBranching = true → k < Nat.pow 2 64 → Leaves p source (.case k)
  | otherwise {p : Platform} {source : Node} :
      p ≠ .dify → source.kind.isBranching = true → Leaves p source .fallthrough
  | declared {source : Node} {k : Nat} :
      Distinctive (declaredIds source) → k < (declaredIds source).length →
        Leaves .dify source (.case k)
  | onlyCase {source : Node} : source.config = .condition [] → Leaves .dify source (.case 0)
  | noCase {source : Node} {cases : List BranchCase} :
      source.config = .condition cases → "false" ∉ cases.map BranchCase.id →
        Leaves .dify source .fallthrough

/-- A spelling with characters is read by the rules of its platform. -/
theorem ofSpelling_of_ne {p : Platform} {s : String} (hs : s ≠ "") (source : Node) :
    ofSpelling p (some s) source =
      match p with
      | .dify => ofDify s source
      | .coze => ofCoze s source
      | .bailian => ofBailian s source := by
  have hsome : s.isEmpty = false := by simpa using hs
  cases p <;> simp [ofSpelling, hsome]

/-- Among different ids, each is found at its own place. -/
theorem position?_of_getElem? {ids : List String} (hids : ids.Nodup) {k : Nat} {id : String}
    (hid : ids[k]? = some id) : position? ids id = some k := by
  obtain ⟨hk, rfl⟩ := List.getElem?_eq_some_iff.mp hid
  refine List.findIdx?_eq_some_iff_getElem.mpr ⟨hk, beq_self_eq_true _, fun j hj => ?_⟩
  have hother := List.pairwise_iff_getElem.mp hids j k (by omega) hk hj
  simpa using hother

theorem position?_eq_none {ids : List String} {s : String} (hs : s ∉ ids) :
    position? ids s = none := by
  refine List.findIdx?_eq_none_iff.mpr fun id hid => beq_eq_false_iff_ne.mpr ?_
  rintro rfl
  exact hs hid

/-- Dify writes a declared branch as its id. -/
theorem toDify_of_declared {source : Node} {k : Nat} {id : String}
    (hid : (declaredIds source)[k]? = some id) : toDify (.case k) source = id := by
  unfold declaredIds at hid
  cases hconfig : source.config with
  | condition cases =>
      obtain ⟨c, hc, rfl⟩ : ∃ c, cases[k]? = some c ∧ c.id = id := by
        simpa [hconfig, List.getElem?_map] using hid
      simp [toDify, hconfig, hc]
  | classifier c =>
      obtain ⟨label, hlabel, rfl⟩ : ∃ label, c.classes[k]? = some label ∧ label.id = id := by
        simpa [hconfig, List.getElem?_map] using hid
      simp [toDify, hconfig, hlabel]
  | _ => simp [hconfig] at hid

/-- Dify reads an id as the first branch that has it. -/
theorem ofDify_of_position? {source : Node} {k : Nat} {id : String} (hother : id ≠ "source")
    (hplace : position? (declaredIds source) id = some k) : ofDify id source = .case k := by
  have hconditional : (id == "source") = false := beq_eq_false_iff_ne.mpr hother
  unfold declaredIds at hplace
  rw [ofDify, hconditional]
  cases hconfig : source.config with
  | condition cases =>
      rw [hconfig] at hplace
      simp [hplace]
  | classifier c =>
      rw [hconfig] at hplace
      simp [hplace]
  | _ =>
      rw [hconfig] at hplace
      cases hplace

/-- Dify reads a declared id as the branch at its place. -/
theorem ofDify_of_declared {source : Node} (hids : Distinctive (declaredIds source)) {k : Nat}
    {id : String} (hid : (declaredIds source)[k]? = some id) : ofDify id source = .case k := by
  refine ofDify_of_position? ?_ (position?_of_getElem? hids.nodup hid)
  rintro rfl
  exact hids.conditional (List.mem_of_getElem? hid)

/-- Dify: a declared id is found where it is declared, and the words for the first branch
and for no branch are only written where no declared id can be taken for them. -/
theorem ofSpelling_toDify {source : Node} {h : Handle} (hleaves : Leaves .dify source h) :
    ofSpelling .dify (some (toDify h source)) source = h := by
  cases hleaves with
  | default => rfl
  | numbered hother => exact absurd rfl hother
  | otherwise hother => exact absurd rfl hother
  | @declared _ k hids hk =>
      have hid := List.getElem?_eq_getElem hk
      have hne : (declaredIds source)[k] ≠ "" := fun hempty =>
        hids.nonempty (hempty ▸ List.getElem_mem hk)
      rw [toDify_of_declared hid, ofSpelling_of_ne hne]
      exact ofDify_of_declared hids hid
  | onlyCase hconfig =>
      have htrue : toDify (.case 0) source = "true" := by simp [toDify, hconfig]
      rw [htrue, ofSpelling_of_ne (by decide)]
      simp [ofDify, hconfig, position?]
  | noCase hconfig hfalse =>
      have hspelling : toDify .fallthrough source = "false" := rfl
      rw [hspelling, ofSpelling_of_ne (by decide)]
      simp [ofDify, hconfig, position?_eq_none hfalse]

/-- Coze: the number of a branch is not taken for a reserved word, since it stands behind
a longer word. -/
theorem ofSpelling_toCoze? {source : Node} (hkind : source.config.kind = source.kind)
    {h : Handle} (hleaves : Leaves .coze source h) :
    ofSpelling .coze (toCoze? h source) source = h := by
  cases hleaves with
  | default => rfl
  | @numbered _ _ k _ hbranching hk =>
      rw [← hkind] at hbranching
      cases hconfig : source.config with
      | condition cases =>
          cases k with
          | zero =>
              have htrue : toCoze? (.case 0) source = some "true" := by simp [toCoze?, hconfig]
              rw [htrue, ofSpelling_of_ne (by decide)]
              simp [ofCoze, hconfig]
          | succ k =>
              have hnumber : toCoze? (.case (k + 1)) source = some (numbered "true_" (k + 1)) := by
                simp [toCoze?, hconfig]
              have htrue : numbered "true_" (k + 1) ≠ "true" := numbered_ne (by decide) _
              have hfalse : numbered "true_" (k + 1) ≠ "false" := numbered_ne (by decide) _
              rw [hnumber, ofSpelling_of_ne (numbered_ne (by decide) _)]
              simp [ofCoze, hconfig, htrue, hfalse, indexAfter?_numbered _ hk]
      | classifier c =>
          have hnumber : toCoze? (.case k) source = some (numbered "branch_" k) := by
            simp [toCoze?, hconfig]
          have hdefault : numbered "branch_" k ≠ "default" := numbered_ne (by decide) _
          rw [hnumber, ofSpelling_of_ne (numbered_ne (by decide) _)]
          simp [ofCoze, hconfig, hdefault, indexAfter?_numbered _ hk]
      | _ =>
          rw [hconfig] at hbranching
          cases hbranching
  | otherwise _ hbranching =>
      rw [← hkind] at hbranching
      cases hconfig : source.config with
      | condition cases =>
          have hfalse : toCoze? .fallthrough source = some "false" := by simp [toCoze?, hconfig]
          rw [hfalse, ofSpelling_of_ne (by decide)]
          simp [ofCoze, hconfig]
      | classifier c =>
          have hdefault : toCoze? .fallthrough source = some "default" := by
            simp [toCoze?, hconfig]
          rw [hdefault, ofSpelling_of_ne (by decide)]
          simp [ofCoze, hconfig]
      | _ =>
          rw [hconfig] at hbranching
          cases hbranching

/-- Bailian: branches are numbered alike for both kinds of nodes that have them. -/
theorem ofSpelling_toBailian {source : Node} {h : Handle} (hleaves : Leaves .bailian source h) :
    ofSpelling .bailian (some (toBailian h)) source = h := by
  cases hleaves with
  | default => rfl
  | @numbered _ _ k _ hbranching hk =>
      have hout : numbered "branch_" k ≠ "out" := numbered_ne (by decide) _
      have helse : numbered "branch_" k ≠ "else" := numbered_ne (by decide) _
      rw [toBailian, ofSpelling_of_ne (numbered_ne (by decide) _)]
      simp [ofBailian, hbranching, hout, helse, indexAfter?_numbered _ hk]
  | otherwise _ hbranching =>
      rw [toBailian, ofSpelling_of_ne (by decide)]
      simp [ofBailian, hbranching]

/-- Every handle but a raw one is spelled by the rules of the platform. -/
theorem spelling?_of_ne_raw {h : Handle} (hraw : ∀ s, h ≠ .raw s) (p : Platform)
    (source : Node) :
    spelling? p h source =
      match p with
      | .dify => some (toDify h source)
      | .coze => toCoze? h source
      | .bailian => some (toBailian h) := by
  cases h with
  | raw s => exact absurd rfl (hraw s)
  | default => rfl
  | case index => rfl
  | fallthrough => rfl

/-- A branch that a node can leave by is read from its spelling as the branch that it is,
so that no two of them have the same spelling. -/
theorem ofSpelling_spelling? {p : Platform} {source : Node}
    (hkind : source.kind = source.config.kind) :
    (∀ h, Leaves p source h → ofSpelling p (spelling? p h source) source = h) ∧
      ∀ h other, Leaves p source h → Leaves p source other →
        spelling? p h source = spelling? p other source → h = other := by
  have hback : ∀ h, Leaves p source h → ofSpelling p (spelling? p h source) source = h := by
    intro h hleaves
    have hraw : ∀ s, h ≠ .raw s := by
      rintro s rfl
      cases hleaves
    rw [spelling?_of_ne_raw hraw]
    cases p with
    | dify => exact ofSpelling_toDify hleaves
    | coze => exact ofSpelling_toCoze? hkind.symm hleaves
    | bailian => exact ofSpelling_toBailian hleaves
  refine ⟨hback, fun h other hleaves hother hsame => ?_⟩
  rw [← hback h hleaves, hsame, hback other hother]

/-- A condition whose first case has the id with which other conditions spell the first
case. -/
def reservedId : Node :=
  Node.ofConfig "n" "N" (.condition [⟨"true", .and, []⟩, ⟨"x", .and, []⟩])

theorem ofSpelling_spelling?_reservedId :
    reservedId.kind = reservedId.config.kind ∧
      ofSpelling .dify (spelling? .dify (.case 1) reservedId) reservedId = .case 1 ∧
      spelling? .dify (.case 0) reservedId ≠ spelling? .dify .fallthrough reservedId := by
  have hids : Distinctive (declaredIds reservedId) := ⟨by decide, by decide, by decide⟩
  have hkind : reservedId.kind = reservedId.config.kind := rfl
  obtain ⟨hback, hinjective⟩ := ofSpelling_spelling? (p := .dify) hkind
  refine ⟨hkind, hback _ (.declared hids (by decide)), fun hsame => ?_⟩
  have hequal : Handle.case 0 = .fallthrough :=
    hinjective _ _ (.declared hids (by decide)) (.noCase rfl (by decide)) hsame
  cases hequal

end Handle

end WorkflowGraph
