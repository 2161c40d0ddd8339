/-
# A flat list of nodes, grouped by loop

A Dify export lists the nodes of all levels in one list, and its document keeps each of
them in one place: at the root, or in the section of the loop that it names. The lists
that come out are those of the nodes with the same loop, in the order of the export, and
none of them is empty. A loop is named by the parent of a node before the data of the node
is asked. The two ways to name a loop differ on the empty text: in the data it stands for
no loop, but as a parent it is taken for the name of one, so that exactly the exports
without an empty parent are grouped by what the nodes name.
-/

import WorkflowGraph.Proofs.BlockLists
import WorkflowGraph.Proofs.ExportedNodes

namespace WorkflowGraph

namespace Fields

variable {β γ : Type}

theorem get?_eq_none_of_lt {key : String} {t : Fields β} (hkey : ∀ entry ∈ t, key < entry.1) :
    get? key t = none := by
  induction t with
  | nil => rfl
  | cons head t ih =>
      obtain ⟨hhead, htail⟩ := List.forall_mem_cons.mp hkey
      rw [get?, if_neg (ne_of_gt hhead)]
      exact ih htail

/-- If the value stored under a name is extended, so is what all values hold together. -/
theorem flatMap_insert_perm {key : String} {value : β} {f : β → List γ} {more : List γ}
    {t : Fields β} (ht : t.Ascending)
    (hvalue : f value = ((get? key t).map f).getD [] ++ more) :
    ((insert key value t).flatMap fun entry => f entry.2).Perm
      ((t.flatMap fun entry => f entry.2) ++ more) := by
  induction t with
  | nil =>
      apply List.Perm.of_eq
      simpa [insert, get?] using hvalue
  | cons head t ih =>
      obtain ⟨hhead, htail⟩ := List.pairwise_cons.mp ht
      obtain ⟨name, old⟩ := head
      unfold insert
      split
      next hsame =>
          rw [get?, if_pos hsame.symm] at hvalue
          rw [List.flatMap_cons, List.flatMap_cons, hvalue]
          show ((f old ++ more) ++ _).Perm _
          rw [List.append_assoc, List.append_assoc]
          exact List.perm_append_comm.append_left _
      next hother =>
          split
          next hless =>
              have hnew : get? key ((name, old) :: t) = none := by
                apply get?_eq_none_of_lt
                exact List.forall_mem_cons.mpr ⟨hless, fun entry hentry =>
                  lt_trans hless (hhead entry hentry)⟩
              rw [hnew] at hvalue
              rw [List.flatMap_cons, hvalue]
              exact List.perm_append_comm
          next =>
              rw [get?, if_neg (Ne.symm hother)] at hvalue
              rw [List.flatMap_cons, List.flatMap_cons, List.append_assoc]
              exact (ih htail hvalue).append_left _

end Fields

namespace Dify

/-- The loop that a node names: its parent, or the loop in its data. An empty text names
no loop. -/
def NodeEntry.loopName? (e : NodeEntry) : Option String :=
  (e.parentId.filter fun p => !p.isEmpty).orElse fun _ =>
    (Loose.text? (Fields.get? "iteration_id" e.data)).filter fun p => !p.isEmpty

section Grouping

variable (owner? : NodeEntry → Option String)

/-- The records of the nodes with a given loop, in order. -/
def group (nodes : List NodeEntry) (owner : String) : List Record :=
  (nodes.filter fun e => owner? e == some owner).map NodeEntry.toRecord

/-- The section of a loop; a loop without nodes has none. -/
def bodyOf? (nodes : List NodeEntry) (owner : String) : Option Blocks :=
  if (group owner? nodes owner).isEmpty then none else some ⟨group owner? nodes owner, []⟩

/-- A document holds the nodes of a canvas grouped by loop: the nodes without a loop stand at
the root, and those with the same loop in its section, everywhere in the order of the
canvas. Every node has one place, no section is empty, and all links stay at the root. -/
structure Groups (canvas : Canvas) (d : Document) : Prop where
  root : d.records =
    (canvas.nodes.filter fun e => (owner? e).isNone).map NodeEntry.toRecord
  sections : ∀ owner, Table.get? owner d.sections = bodyOf? owner? canvas.nodes owner
  nonempty : ∀ entry ∈ d.sections.entries, entry.2.records ≠ []
  once : (d.records ++ d.sections.entries.flatMap fun entry => entry.2.records).Perm
    (canvas.nodes.map NodeEntry.toRecord)
  links : d.links = canvas.links

variable {owner?}

theorem group_concat (nodes : List NodeEntry) (e : NodeEntry) (owner : String) :
    group owner? (nodes ++ [e]) owner =
      group owner? nodes owner ++ if owner? e = some owner then [e.toRecord] else [] := by
  unfold group
  rw [List.filter_append, List.map_append]
  by_cases hsame : owner? e = some owner <;> simp [hsame]

/-- A node that does not belong to a loop does not change its section. -/
theorem bodyOf?_concat_of_ne {nodes : List NodeEntry} {e : NodeEntry} {owner : String}
    (hother : owner? e ≠ some owner) :
    bodyOf? owner? (nodes ++ [e]) owner = bodyOf? owner? nodes owner := by
  have hsame : group owner? (nodes ++ [e]) owner = group owner? nodes owner := by
    rw [group_concat, if_neg hother, List.append_nil]
  unfold bodyOf?
  rw [hsame]

/-- A node that belongs to a loop is added at the end of its section. -/
theorem bodyOf?_concat_of_eq {nodes : List NodeEntry} {e : NodeEntry} {owner : String}
    (hsame : owner? e = some owner) :
    bodyOf? owner? (nodes ++ [e]) owner =
      let body := (bodyOf? owner? nodes owner).getD .empty
      some { body with records := body.records ++ [e.toRecord] } := by
  unfold bodyOf?
  rw [group_concat, if_pos hsame, if_neg (by simp)]
  cases hgroup : group owner? nodes owner <;> simp [Blocks.empty]

theorem bodyOf?_congr {other? : NodeEntry → Option String} {nodes : List NodeEntry}
    (hnodes : ∀ e ∈ nodes, owner? e = other? e) (owner : String) :
    bodyOf? owner? nodes owner = bodyOf? other? nodes owner := by
  have hsame : group owner? nodes owner = group other? nodes owner := by
    unfold group
    rw [List.filter_congr fun e he => by rw [hnodes e he]]
  unfold bodyOf?
  rw [hsame]

/-- The grouping depends on the loops of the nodes alone. -/
theorem Groups.congr {other? : NodeEntry → Option String} {canvas : Canvas} {d : Document}
    (hgroups : Groups owner? canvas d) (hnodes : ∀ e ∈ canvas.nodes, owner? e = other? e) :
    Groups other? canvas d where
  root := by
    rw [hgroups.root, List.filter_congr fun e he => by rw [hnodes e he]]
  sections owner := (hgroups.sections owner).trans (bodyOf?_congr hnodes owner)
  nonempty := hgroups.nonempty
  once := hgroups.once
  links := hgroups.links

end Grouping

/-! The sections of a document are made by adding one node after another. -/

section Adding

variable {nodes : List NodeEntry} {e : NodeEntry}

theorem sections_concat_of_none (hparent : e.parent? = none) :
    sections (nodes ++ [e]) = sections nodes := by
  simp [sections, hparent]

theorem sections_concat_of_some {owner : String} (hparent : e.parent? = some owner) :
    sections (nodes ++ [e]) = addToSection (sections nodes) owner e.toRecord := by
  simp [sections, hparent]

end Adding

theorem get?_addToSection (table : Table Blocks) (owner key : String) (r : Record) :
    Table.get? key (addToSection table owner r) =
      if owner = key then
        let body := (Table.get? owner table).getD .empty
        some { body with records := body.records ++ [r] }
      else Table.get? key table :=
  Table.get?_insert owner key _ table

theorem get?_sections (nodes : List NodeEntry) (owner : String) :
    Table.get? owner (sections nodes) = bodyOf? NodeEntry.parent? nodes owner := by
  induction nodes using List.reverseRecOn with
  | nil => rfl
  | append_singleton nodes e ih =>
      cases hparent : e.parent? with
      | none =>
          rw [sections_concat_of_none hparent, bodyOf?_concat_of_ne (by simp [hparent]), ih]
      | some parent =>
          rw [sections_concat_of_some hparent, get?_addToSection]
          by_cases hsame : parent = owner
          · subst hsame
            rw [bodyOf?_concat_of_eq hparent, if_pos rfl, ih]
          · rw [bodyOf?_concat_of_ne (by simpa [hparent] using hsame), if_neg hsame, ih]

/-- One more node in a section is one more record in all sections together. -/
theorem records_addToSection_perm (table : Table Blocks) (owner : String) (r : Record) :
    ((addToSection table owner r).entries.flatMap fun entry => entry.2.records).Perm
      ((table.entries.flatMap fun entry => entry.2.records) ++ [r]) := by
  apply Fields.flatMap_insert_perm table.ascending
  show _ = (((Table.get? owner table).map Blocks.records).getD []) ++ [r]
  cases Table.get? owner table <;> rfl

/-- The root and the sections hold the records of all nodes, each of them once. -/
theorem records_sections_perm (nodes : List NodeEntry) :
    (((nodes.filter fun e => e.parent?.isNone).map NodeEntry.toRecord) ++
      (sections nodes).entries.flatMap fun entry => entry.2.records).Perm
        (nodes.map NodeEntry.toRecord) := by
  induction nodes using List.reverseRecOn with
  | nil => exact List.Perm.nil
  | append_singleton nodes e ih =>
      rw [List.map_append]
      cases hparent : e.parent? with
      | none =>
          have hroot : ((nodes ++ [e]).filter fun e => e.parent?.isNone) =
              (nodes.filter fun e => e.parent?.isNone) ++ [e] := by simp [hparent]
          rw [sections_concat_of_none hparent, hroot, List.map_append, List.append_assoc]
          apply (List.perm_append_comm.append_left _).trans
          rw [← List.append_assoc]
          exact ih.append_right _
      | some owner =>
          have hroot : ((nodes ++ [e]).filter fun e => e.parent?.isNone) =
              nodes.filter fun e => e.parent?.isNone := by simp [hparent]
          have hadded := records_addToSection_perm (sections nodes) owner e.toRecord
          rw [sections_concat_of_some hparent, hroot]
          apply (hadded.append_left _).trans
          rw [← List.append_assoc]
          exact ih.append_right _

/-- A section holds the records of the nodes with its parent, at least one, and no links. -/
theorem eq_of_mem_sections {nodes : List NodeEntry} {entry : String × Blocks}
    (hentry : entry ∈ (sections nodes).entries) :
    entry.2 = ⟨group NodeEntry.parent? nodes entry.1, []⟩ ∧ entry.2.records ≠ [] := by
  have hfound := Table.get?_of_mem hentry
  rw [get?_sections] at hfound
  unfold bodyOf? at hfound
  split at hfound
  next => cases hfound
  next hgroup =>
      rw [← Option.some.inj hfound]
      exact ⟨rfl, fun hempty => hgroup (List.isEmpty_iff.mpr hempty)⟩

/-- The document of a canvas holds its nodes grouped by parent. -/
theorem groups_toDocument (canvas : Canvas) :
    Groups NodeEntry.parent? canvas canvas.toDocument where
  root := rfl
  sections := get?_sections canvas.nodes
  nonempty := fun _ hentry => (eq_of_mem_sections hentry).2
  once := records_sections_perm canvas.nodes
  links := rfl

/-- Only an empty parent tells the loop that a node names from the one it is moved to. -/
theorem parent?_eq_loopName? {e : NodeEntry} (hparent : e.parentId ≠ some "") :
    e.parent? = e.loopName? := by
  unfold NodeEntry.parent? NodeEntry.loopName?
  cases hid : e.parentId with
  | none => rfl
  | some parent =>
      have hsome : parent.isEmpty = false := by
        rw [String.isEmpty_eq_false_iff]
        rintro rfl
        exact hparent hid
      simp [Option.filter, hsome]

theorem loopName?_ne_empty (e : NodeEntry) : e.loopName? ≠ some "" := by
  have hsome : ∀ name : Option String, (name.filter fun p => !p.isEmpty) ≠ some "" := by simp
  unfold NodeEntry.loopName?
  cases hparent : e.parentId.filter fun p => !p.isEmpty with
  | none => exact hsome _
  | some parent =>
      have hnamed := hsome e.parentId
      rwa [hparent] at hnamed

/-- No section is named by the empty text where nodes are grouped by the loops they name. -/
theorem bodyOf?_loopName?_empty (nodes : List NodeEntry) :
    bodyOf? NodeEntry.loopName? nodes "" = none := by
  have hgroup : group NodeEntry.loopName? nodes "" = [] := by
    unfold group
    rw [List.map_eq_nil_iff, List.filter_eq_nil_iff]
    exact fun e _ => by simpa using loopName?_ne_empty e
  unfold bodyOf?
  rw [hgroup]
  rfl

/-- A node that belongs to a loop opens its section. -/
theorem bodyOf?_ne_none {owner? : NodeEntry → Option String} {nodes : List NodeEntry}
    {e : NodeEntry} (he : e ∈ nodes) {owner : String} (howner : owner? e = some owner) :
    bodyOf? owner? nodes owner ≠ none := by
  have hmem : e.toRecord ∈ group owner? nodes owner :=
    List.mem_map_of_mem (List.mem_filter.mpr ⟨he, by simp [howner]⟩)
  unfold bodyOf?
  rw [if_neg fun hempty => List.ne_nil_of_mem hmem (List.isEmpty_iff.mp hempty)]
  nofun

/-- The nodes of a canvas are grouped by the loops that they name exactly if none of them
has an empty parent. -/
theorem groups_loopName?_iff (canvas : Canvas) :
    Groups NodeEntry.loopName? canvas canvas.toDocument ↔
      ∀ e ∈ canvas.nodes, e.parentId ≠ some "" := by
  constructor
  · intro hgroups e he hempty
    have hparent : e.parent? = some "" := by
      unfold NodeEntry.parent?
      rw [hempty]
      rfl
    have hopened := bodyOf?_ne_none he hparent
    rw [← get?_sections] at hopened
    exact hopened ((hgroups.sections "").trans (bodyOf?_loopName?_empty canvas.nodes))
  · intro hnodes
    exact (groups_toDocument canvas).congr fun e he => parent?_eq_loopName? (hnodes e he)

/-- The nodes of an export are put at the root and into the sections of their parents, each
of them once and in the order of the export. This is the grouping by the loops that they
name, unless a node has an empty parent: such a node is moved to a section with the empty
name. -/
theorem parse_groups {exported : Json} {d : Document} (hparse : parse exported = .ok d) :
    ∃ canvas, Canvas.read (graphPart exported) = .ok canvas ∧
      Groups NodeEntry.parent? canvas d ∧
      (Groups NodeEntry.loopName? canvas d ↔ ∀ e ∈ canvas.nodes, e.parentId ≠ some "") := by
  obtain ⟨canvas, hread, rfl⟩ := exists_canvas_of_parse hparse
  exact ⟨canvas, hread, groups_toDocument canvas, groups_loopName?_iff canvas⟩

/-- Nodes that name their loop in one way or the other: `a` in both, with two loops, `b` and
`d` in the data alone, `d` by a number, and `c` in neither. -/
def mixedParents : Json :=
  .obj [("nodes", .arr
    [.obj [("data", .obj [("type", .str "iteration")]), ("id", .str "loop")],
     .obj [("data", .obj [("iteration_id", .str "other"), ("type", .str "code")]),
       ("id", .str "a"), ("parentId", .str "loop")],
     .obj [("data", .obj [("iteration_id", .nat 7), ("type", .str "end")]), ("id", .str "d")],
     .obj [("data", .obj [("iteration_id", .str "loop"), ("type", .str "code")]),
       ("id", .str "b")],
     .obj [("data", .obj [("iteration_id", .str ""), ("type", .str "code")]),
       ("id", .str "c"), ("parent_id", .null)]])]

theorem parse_groups_mixedParents :
    ∃ d canvas, parse mixedParents = .ok d ∧ Canvas.read (graphPart mixedParents) = .ok canvas ∧
      Groups NodeEntry.parent? canvas d ∧ Groups NodeEntry.loopName? canvas d ∧
      d.records.map Record.id = ["loop", "c"] ∧
      (d.sections.entries.map fun entry => (entry.1, entry.2.records.map Record.id)) =
        [("7", ["d"]), ("loop", ["a", "b"])] := by
  obtain ⟨d, hparse, hlists⟩ := Conversion.exists_ok_of_any (x := parse mixedParents)
    (q := fun d => d.records.map Record.id == ["loop", "c"] &&
      (d.sections.entries.map fun entry => (entry.1, entry.2.records.map Record.id)) ==
        [("7", ["d"]), ("loop", ["a", "b"])]) (by decide +kernel)
  obtain ⟨canvas, hread, hparents⟩ := Conversion.exists_ok_of_any
    (x := Canvas.read (graphPart mixedParents))
    (q := fun canvas => canvas.nodes.all fun e => e.parentId != some "") (by decide +kernel)
  obtain ⟨other, hother, hgroups, hnamed⟩ := parse_groups hparse
  obtain rfl := Except.ok.inj (hother.symm.trans hread)
  have hnonempty : ∀ e ∈ other.nodes, e.parentId ≠ some "" := by simpa using hparents
  simp only [Bool.and_eq_true, beq_iff_eq] at hlists
  exact ⟨d, other, hparse, hread, hgroups, hnamed.mpr hnonempty, hlists.1, hlists.2⟩

/-- A node with an empty parent. -/
def blankParent : Json :=
  .obj [("edges", .arr []),
    ("nodes", .arr [.obj [("data", .obj [("type", .str "code")]), ("id", .str "a"),
      ("parentId", .str "")]])]

/-- The node names no loop, but it does not stand at the root. -/
theorem blankParent_misplaced :
    ∃ d canvas, Platform.dify.parseDocument blankParent = .ok d ∧
      Canvas.read (graphPart blankParent) = .ok canvas ∧
      canvas.nodes.map (fun e => (e.id, e.loopName?)) = [("a", none)] ∧
      d.records.map Record.id = [] ∧
      (d.sections.entries.map fun entry => (entry.1, entry.2.records.map Record.id)) =
        [("", ["a"])] ∧
      ¬ Groups NodeEntry.loopName? canvas d := by
  obtain ⟨d, hparse, hlists⟩ := Conversion.exists_ok_of_any
    (x := Platform.dify.parseDocument blankParent)
    (q := fun d => d.records.map Record.id == [] &&
      (d.sections.entries.map fun entry => (entry.1, entry.2.records.map Record.id)) ==
        [("", ["a"])])
    (by decide +kernel)
  obtain ⟨canvas, hread, hnode⟩ := Conversion.exists_ok_of_any
    (x := Canvas.read (graphPart blankParent))
    (q := fun canvas => canvas.nodes.map (fun e => (e.id, e.loopName?)) == [("a", none)])
    (by decide +kernel)
  simp only [Bool.and_eq_true, beq_iff_eq] at hlists hnode
  refine ⟨d, canvas, hparse, hread, hnode, hlists.1, hlists.2, fun hgroups => ?_⟩
  obtain ⟨e, hnodes, he⟩ := List.map_eq_singleton_iff.mp hnode
  have hname : e.loopName? = none := congrArg Prod.snd he
  have hroot : d.records = [e.toRecord] := by
    rw [hgroups.root, hnodes]
    simp [hname]
  rw [hroot] at hlists
  cases hlists.1

end Dify

end WorkflowGraph
