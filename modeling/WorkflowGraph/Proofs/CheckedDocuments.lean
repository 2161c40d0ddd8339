/-
# Documents that pass their check

The check of a document looks at every record by itself, also at those in bodies and in
sections. The place of a record in its list plays a part in what is reported about it,
but not in whether it passes.
-/

import WorkflowGraph.Record

namespace WorkflowGraph

/-- The record has an id and a tag, and so have the records of the body stored on it. -/
structure Record.Passes (r : Record) : Prop where
  id : Text.isBlankText r.id = false
  tag : Text.isBlankText r.tag = false
  blocks : Blocks.checkOption r.blocks = .ok ()

theorem Record.checkAll_cons_eq_ok_iff {index : Nat} {r : Record} {rs : List Record} :
    checkAll index (r :: rs) = .ok () ↔ r.Passes ∧ checkAll (index + 1) rs = .ok () := by
  obtain ⟨id, tag, title, params, inputs, outputs, blocks, presentation⟩ := r
  rw [checkAll]
  constructor
  · intro hok
    split at hok
    · cases hok
    next hid =>
        split at hok
        · cases hok
        next htag =>
            split at hok
            · cases hok
            next hblocks =>
                exact ⟨⟨Bool.eq_false_iff.mpr hid, Bool.eq_false_iff.mpr htag, hblocks⟩, hok⟩
  · rintro ⟨⟨hid, htag, hblocks⟩, hrest⟩
    have hid : Text.isBlankText id = false := hid
    have htag : Text.isBlankText tag = false := htag
    have hblocks : Blocks.checkOption blocks = .ok () := hblocks
    simp [hid, htag, hblocks, hrest]

/-- A list passes if each of its records does. -/
theorem Record.checkAll_eq_ok_iff {index : Nat} {rs : List Record} :
    checkAll index rs = .ok () ↔ ∀ r ∈ rs, r.Passes := by
  induction rs generalizing index with
  | nil => simp [checkAll]
  | cons r rs ih => rw [checkAll_cons_eq_ok_iff, ih, List.forall_mem_cons]

/-- A check of each member passes if it passes for every one. -/
theorem forM_eq_ok_iff {ε α : Type} {check : α → Except ε Unit} {l : List α} :
    forM l check = .ok () ↔ ∀ a ∈ l, check a = .ok () := by
  induction l with
  | nil => simp [pure, Except.pure]
  | cons a l ih =>
      rw [List.forM_cons, List.forall_mem_cons, ← ih]
      cases check a with
      | error _ => simp [bind, Except.bind]
      | ok _ => simp [bind, Except.bind]

/-- A document passes if its root and all of its sections do. -/
theorem Document.check_eq_ok_iff {d : Document} : d.check = .ok () ↔
    Record.checkAll 0 d.records = .ok () ∧
      ∀ e ∈ d.sections.entries, Record.checkAll 0 e.2.records = .ok () := by
  rw [← forM_eq_ok_iff]
  unfold check
  cases Record.checkAll 0 d.records with
  | error _ => simp [bind, Except.bind]
  | ok _ => simp [bind, Except.bind]

end WorkflowGraph
