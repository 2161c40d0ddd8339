/-
# Templates

A text is a reference if, apart from the blanks around it, it is one placeholder and nothing
else. The grammar of placeholders is given here by the way they are written, and reading
accepts exactly what can be written. Since a placeholder shows its own brackets once, no other
text can stand beside it, and a text with two placeholders is no reference but a literal.
-/

import Mathlib.Data.List.Basic
import Mathlib.Data.List.TakeWhile
import WorkflowGraph.Platform.Bailian
import WorkflowGraph.Proofs.WrittenHandles

namespace WorkflowGraph

namespace Text

theorem dropStart?_eq_some_iff {start cs rest : List Char} :
    dropStart? start cs = some rest ↔ cs = start ++ rest := by
  constructor
  · exact eq_append_of_dropStart?
  · rintro rfl
    exact dropStart?_append start rest

theorem dropEnd?_eq_some_iff {ending cs rest : List Char} :
    dropEnd? ending cs = some rest ↔ cs = rest ++ ending := by
  have hreversed : ∀ l : List Char,
      cs.reverse = ending.reverse ++ l ↔ cs = l.reverse ++ ending := by
    intro l
    rw [← List.reverse_inj]
    simp
  simp only [dropEnd?, Option.map_eq_some_iff, dropStart?_eq_some_iff, hreversed]
  constructor
  · rintro ⟨l, rfl, rfl⟩
    rfl
  · rintro rfl
    exact ⟨rest.reverse, by simp, by simp⟩

/-- What is trimmed off are blanks at the two ends. -/
theorem exists_blanks (cs : List Char) : ∃ before after : List Char,
    (∀ c ∈ before ++ after, isBlank c = true) ∧ cs = before ++ trimChars cs ++ after := by
  generalize hrest : cs.dropWhile isBlank = rest
  refine ⟨cs.takeWhile isBlank, (rest.reverse.takeWhile isBlank).reverse, fun c hc => ?_, ?_⟩
  · rw [List.mem_append, List.mem_reverse] at hc
    rcases hc with hfront | hback
    · exact List.mem_takeWhile_imp hfront
    · exact List.mem_takeWhile_imp hback
  · have hsplit : rest = (rest.reverse.dropWhile isBlank).reverse ++
        (rest.reverse.takeWhile isBlank).reverse := by
      rw [← List.reverse_append, List.takeWhile_append_dropWhile, List.reverse_reverse]
    rw [trimChars, hrest, List.append_assoc, ← hsplit, ← hrest,
      List.takeWhile_append_dropWhile]

/-- The parts of a text that are joined by its first point. -/
theorem splits_at_point_iff {cs front back : List Char} :
    (cs.takeWhile (· != '.') = front ∧ dropStart? ['.'] (cs.dropWhile (· != '.')) = some back) ↔
      '.' ∉ front ∧ cs = front ++ '.' :: back := by
  constructor
  · rintro ⟨rfl, hback⟩
    constructor
    · intro hpoint
      simpa using List.mem_takeWhile_imp hpoint
    · have hrest := dropStart?_eq_some_iff.mp hback
      rw [← List.singleton_append, ← hrest, List.takeWhile_append_dropWhile]
  · rintro ⟨hfree, rfl⟩
    have hfront : ∀ c ∈ front, (c != '.') = true := by
      intro c hc
      rw [bne_iff_ne]
      rintro rfl
      exact hfree hc
    rw [List.takeWhile_append_of_pos hfront, List.dropWhile_append_of_pos hfront]
    simp [dropStart?]

end Text

namespace Loose

/-- The characters that mark a placeholder. -/
def isMark (c : Char) : Bool :=
  c == '\x7b' || c == '\x7d' || c == '$'

/-- The way a pointer is written into a template. -/
def placeholder (p : Pointer) : String :=
  "$\x7b" ++ p.node ++ "." ++ p.output ++ "\x7d"

/-- The pointers that can be written into a template: the output may contain points, and the
node may not. -/
structure HasPlaceholder (p : Pointer) : Prop where
  node : p.node ≠ ""
  output : p.output ≠ ""
  point : '.' ∉ p.node.toList
  marks : ∀ c ∈ p.node.toList ++ p.output.toList, isMark c = false

/-- The point between a node and an output is no mark. -/
theorem forall_isMark_join_iff {front back : List Char} :
    (∀ c ∈ front ++ '.' :: back, isMark c = false) ↔ ∀ c ∈ front ++ back, isMark c = false := by
  have hpoint : isMark '.' = false := rfl
  rw [List.forall_mem_append, List.forall_mem_append, List.forall_mem_cons]
  exact and_congr_right fun _ => and_iff_right hpoint

/-- No blank is a mark. -/
theorem isMark_eq_false_of_isBlank {c : Char} (hblank : Text.isBlank c = true) :
    isMark c = false := by
  apply Bool.eq_false_iff.mpr
  intro hmark
  simp only [isMark, Bool.or_eq_true, beq_iff_eq] at hmark
  obtain (rfl | rfl) | rfl := hmark <;> exact absurd hblank (by decide)

theorem toList_placeholder (p : Pointer) :
    (placeholder p).toList =
      '$' :: '\x7b' :: (p.node.toList ++ '.' :: p.output.toList) ++ ['\x7d'] := by
  simp [placeholder]

theorem templateBody?_eq_some_iff {cs body : List Char} :
    templateBody? cs = some body ↔ cs = '$' :: '\x7b' :: body ++ ['\x7d'] := by
  simp only [templateBody?, Option.bind_eq_some_iff, Text.dropStart?_eq_some_iff,
    Text.dropEnd?_eq_some_iff]
  constructor
  · rintro ⟨_, rfl, rfl⟩
    rfl
  · rintro rfl
    exact ⟨_, rfl, rfl⟩

/-- A template is read as a pointer exactly if the trimmed text is how the pointer is written. -/
theorem template?_eq_some_iff {s : String} {p : Pointer} :
    template? s = some p ↔ HasPlaceholder p ∧ Text.trim s = placeholder p := by
  have htrim : Text.trim s = placeholder p ↔ Text.trimChars s.toList =
      '$' :: '\x7b' :: (p.node.toList ++ '.' :: p.output.toList) ++ ['\x7d'] := by
    rw [Text.trim, ← String.toList_inj, String.toList_ofList, toList_placeholder]
  rw [htrim, ← templateBody?_eq_some_iff]
  simp only [template?, Option.bind_eq_bind, Option.bind_eq_some_iff]
  constructor
  · rintro ⟨body, hbody, output, houtput, hread⟩
    obtain ⟨hpoint, hsplit⟩ := Text.splits_at_point_iff.mp ⟨rfl, houtput⟩
    split at hread
    · cases hread
    next hfits =>
      obtain rfl := Option.some.inj hread
      simp only [Bool.or_eq_true, not_or, Bool.not_eq_true] at hfits
      obtain ⟨⟨hnode, hout⟩, hmarks⟩ := hfits
      refine ⟨⟨?_, ?_, ?_, ?_⟩, ?_⟩
      · simpa using hnode
      · simpa using hout
      · simpa using hpoint
      · rw [← forall_isMark_join_iff]
        simpa [← hsplit, isMark] using List.any_eq_false.mp hmarks
      · simpa [← hsplit] using hbody
  · rintro ⟨hfits, hbody⟩
    obtain ⟨hnode, houtput⟩ := Text.splits_at_point_iff.mpr ⟨hfits.point, rfl⟩
    refine ⟨_, hbody, _, houtput, ?_⟩
    rw [hnode, if_neg]
    · simp
    · simp only [Bool.or_eq_true, not_or, Bool.not_eq_true]
      refine ⟨⟨?_, ?_⟩, List.any_eq_false.mpr fun c hc => ?_⟩
      · simpa using hfits.node
      · simpa using hfits.output
      · simpa [isMark] using forall_isMark_join_iff.mpr hfits.marks c hc

/-- A text that shows its dollar sign and its closing bracket once has one front and one back. -/
theorem sides_inj {front body back before inner after : List Char}
    (hdollar : '$' ∉ front ++ body ++ back) (hclosing : '\x7d' ∉ front ++ body ++ back)
    (hsides : front ++ '$' :: ('\x7b' :: body ++ '\x7d' :: back) =
      before ++ '$' :: ('\x7b' :: inner ++ '\x7d' :: after)) : front = before ∧ back = after := by
  simp only [List.mem_append, not_or] at hdollar hclosing
  obtain ⟨⟨hfront, hbody⟩, hback⟩ := hdollar
  have hrest : '$' ∉ '\x7b' :: body ++ '\x7d' :: back := by
    simp [hbody, hback]
  have hopened : '\x7d' ∉ '\x7b' :: body := by
    simp [hclosing.1.2]
  obtain ⟨hsame, -, htail⟩ := (List.append_cons_inj_of_notMem hfront hrest).mp hsides
  exact ⟨hsame, ((List.append_cons_inj_of_notMem hopened hclosing.2).mp htail).2.2⟩

/-- What stands around the placeholder of a reference is blank: no other placeholder can be found
in the reference than the one that it is. -/
theorem isBlankText_of_template? {before after : String} {p q : Pointer}
    (hread : template? (before ++ placeholder p ++ after) = some q) :
    (Text.isBlankText before && Text.isBlankText after) = true := by
  obtain ⟨hfits, htrim⟩ := template?_eq_some_iff.mp hread
  have hchars : Text.trimChars (before ++ placeholder p ++ after).toList =
      (placeholder q).toList := by
    rw [← htrim, Text.trim, String.toList_ofList]
  obtain ⟨front, back, hblank, hwhole⟩ :=
    Text.exists_blanks (before ++ placeholder p ++ after).toList
  have hunmarked : ∀ c ∈ front ++ (q.node.toList ++ '.' :: q.output.toList) ++ back,
      isMark c = false := by
    have hends : ∀ c ∈ front ++ back, isMark c = false := fun c hc =>
      isMark_eq_false_of_isBlank (hblank c hc)
    rw [List.forall_mem_append] at hends
    rw [List.forall_mem_append, List.forall_mem_append]
    exact ⟨⟨hends.1, forall_isMark_join_iff.mpr hfits.marks⟩, hends.2⟩
  have hfree : ∀ c, isMark c = true →
      c ∉ front ++ (q.node.toList ++ '.' :: q.output.toList) ++ back := by
    intro c hmark hc
    cases hmark.symm.trans (hunmarked c hc)
  have hsides : front ++ '$' :: ('\x7b' :: (q.node.toList ++ '.' :: q.output.toList) ++
        '\x7d' :: back) =
      before.toList ++ '$' :: ('\x7b' :: (p.node.toList ++ '.' :: p.output.toList) ++
        '\x7d' :: after.toList) := by
    rw [hchars] at hwhole
    simpa [toList_placeholder] using hwhole.symm
  obtain ⟨rfl, rfl⟩ := sides_inj (hfree '$' rfl) (hfree '\x7d' rfl) hsides
  simpa [Text.isBlankText, or_imp, forall_and] using hblank

end Loose

namespace Bailian

/-- A text that is no reference anywhere: as an input it is a literal, and as a parameter it gives
no pointer. -/
structure IsLiteral (s : String) : Prop where
  input : value (.str s) = .literal (.str s)
  parameter : template (some (.str s)) = .null

theorem isLiteral_of_eq_none {s : String} (hread : Loose.template? s = none) : IsLiteral s := by
  constructor
  · simp [value, Json.str?, hread]
  · simp [template, Json.str?, hread, Loose.pointer, Json.ofOption]

theorem isLiteral_of_shows {before after : String} {p : Pointer}
    (hshows : (Text.isBlankText before && Text.isBlankText after) = false) :
    IsLiteral (before ++ Loose.placeholder p ++ after) := by
  apply isLiteral_of_eq_none
  apply Option.eq_none_iff_forall_ne_some.mpr
  intro q hread
  rw [Loose.isBlankText_of_template? hread] at hshows
  cases hshows

/-- A text is a reference to a pointer exactly if, without the blanks around it, it is the
placeholder of the pointer. So all texts for one pointer differ in the blanks around them only,
and a text that shows other text beside a placeholder, or two placeholders, is a literal. -/
theorem template?_grammar :
    (∀ (s : String) (p : Pointer), Loose.template? s = some p ↔
      Loose.HasPlaceholder p ∧ Text.trim s = Loose.placeholder p) ∧
    (∀ (s other : String) (p : Pointer), Loose.template? s = some p →
      Loose.template? other = some p → Text.trim s = Text.trim other) ∧
    (∀ (before after : String) (p : Pointer),
      (Text.isBlankText before && Text.isBlankText after) = false →
      IsLiteral (before ++ Loose.placeholder p ++ after)) ∧
    ∀ (before between after : String) (p q : Pointer), IsLiteral
      (before ++ Loose.placeholder p ++ (between ++ Loose.placeholder q ++ after)) := by
  refine ⟨fun s p => Loose.template?_eq_some_iff, ?_, ?_, ?_⟩
  · intro s other p hread hother
    rw [(Loose.template?_eq_some_iff.mp hread).2, (Loose.template?_eq_some_iff.mp hother).2]
  · intro before after p hshows
    exact isLiteral_of_shows hshows
  · intro before between after p q
    apply isLiteral_of_shows
    apply Bool.eq_false_iff.mpr
    intro hblank
    -- the second placeholder stands behind the first one and is not blank
    have hbehind : Text.isBlankText (between ++ Loose.placeholder q ++ after) = true :=
      (Bool.and_eq_true_iff.mp hblank).2
    have hdollar : '$' ∈ (between ++ Loose.placeholder q ++ after).toList := by
      simp [Loose.toList_placeholder]
    exact absurd (List.all_eq_true.mp hbehind '$' hdollar) (by decide)

/-- Two spellings of one reference, an output with a point in its name, a text that goes on after
the placeholder, and two placeholders side by side. -/
theorem template?_grammar_spellings :
    let p : Pointer := ⟨"ask", "text.0"⟩
    Loose.template? "$\x7bask.text.0\x7d" = some p ∧
    Loose.template? "\t$\x7bask.text.0\x7d " = some p ∧
    Text.trim "$\x7bask.text.0\x7d" = Text.trim "\t$\x7bask.text.0\x7d " ∧
    IsLiteral ("" ++ Loose.placeholder p ++ " words") ∧
    IsLiteral ("" ++ Loose.placeholder p ++ (", " ++ Loose.placeholder p ++ "")) := by
  obtain ⟨hgrammar, honce, hshows, htwice⟩ := template?_grammar
  have hunmarked : ("ask".toList ++ "text.0".toList).any Loose.isMark = false := by decide
  have hfits : Loose.HasPlaceholder ⟨"ask", "text.0"⟩ :=
    ⟨by decide, by decide, by decide, by simpa using List.any_eq_false.mp hunmarked⟩
  have hplain : Loose.template? "$\x7bask.text.0\x7d" = some ⟨"ask", "text.0"⟩ :=
    (hgrammar _ _).mpr ⟨hfits, by decide⟩
  have hspaced : Loose.template? "\t$\x7bask.text.0\x7d " = some ⟨"ask", "text.0"⟩ :=
    (hgrammar _ _).mpr ⟨hfits, by decide⟩
  exact ⟨hplain, hspaced, honce _ _ _ hplain hspaced, hshows _ _ _ (by decide), htwice _ _ _ _ _⟩

end Bailian

end WorkflowGraph
