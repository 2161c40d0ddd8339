/-
# What the pointers of a document are captured as

Every record that is decoded captures its pointers as what they mean in the document,
wherever it stands and whatever stands before it. An end node then leaves inputs out: those
from records that were removed when it was decoded in its turn. These are all records that
the run removes, but for the end nodes that fail after it.
-/

import WorkflowGraph.Proofs.EndOrder
import WorkflowGraph.Proofs.RunNotes

namespace WorkflowGraph

/-- Before the end node of a record is decoded, some ids were removed. With those of the end
nodes that fail after it they are all that the run removes. -/
def Document.RemovedBefore (g : Registry) (d : Document) (t : Nested Record) (level : Level)
    (r : Record) (removed : List String) : Prop :=
  ∃ before after, ends g t = before ++ (level, r) :: after ∧
    (removed ++ Lift.failed g after).Perm ((d.removedRecords g t).map Record.id)

variable {g : Registry} {d : Document} {resolver : Resolver} {t : Nested Record} {l : Lifted}

/-- A record that can be decoded is decoded with some ids removed. For an end node these are
what the run removes before it. -/
theorem Lift.MadeInTurn.exists_decode (hg : g.UsesBuiltIns)
    (hlifted : Lifted.ofDocument? g d = some l) (ht : d.Unrolls g d.records t)
    {early : List String} (hremoved : l.harvest.removed = early ++ failed g (Document.ends g t))
    {level : Level} {r : Record} {n : Node}
    (hmade : MadeInTurn g resolver early (Document.ends g t) level r n)
    (hdecodes : (g.face? r).isSome = true) :
    ∃ removed, (n.kind = .finish → d.RemovedBefore g t level r removed) ∧
      g.decode (context g resolver removed) r = .ok n := by
  have hends : n.kind = .finish → g.isEnd r = true := fun hkind => (hmade.isEnd hg hkind).1
  obtain ⟨-, removed, hout, hturn⟩ := hmade
  refine ⟨removed, fun hkind => ?_, decode_of_decodeRecord hg hdecodes hout⟩
  obtain ⟨before, after, hsplit, rfl⟩ := hturn (hends hkind)
  refine ⟨before, after, hsplit, ?_⟩
  have hall := Lifted.ofDocument?_removed hg hlifted ht
  rwa [hremoved, hsplit, failed_append, failed_cons_of_decodes hdecodes,
    ← List.append_assoc] at hall

namespace Lifted

/-- The nodes of the root are those of the records that survive on it, made in turn. -/
theorem FillsInTurn.forall₂_roots {early : List String} {f : Nested Node}
    (hfills : l.FillsInTurn g resolver early t) (hmirrors : l.Mirrors g d t f) :
    List.Forall₂ (Lift.MadeInTurn g resolver early (Document.ends g t) .root)
      (g.survivors .root t.roots) f.roots := by
  have hreversed := List.forall₂_reverse_iff.mpr hfills
  rw [hmirrors.levels, Nested.levels, Nested.levels, List.map_append, List.map_singleton,
    List.reverse_concat, List.reverse_concat] at hreversed
  cases hreversed with
  | cons hroot _ => exact hroot.2

/-- Every record that is lifted and survives has its node on its level, in document order.
If it was decoded, its pointers are captured as what they mean in the document, and the
inputs that an end node leaves out are those from records that were removed before it. -/
def Captures (g : Registry) (d : Document) (t : Nested Record) (l : Lifted) : Prop :=
  ∀ level rs, d.Lists g level rs → ∃ ns, (level, ns) ∈ l.levels ∧
    List.Forall₂ (fun r n => n.id = r.id ∧ ((g.face? r).isSome = true →
      g.kind? r.tag = some n.config.kind ∧
        ∃ removed, (n.kind = .finish → d.RemovedBefore g t level r removed) ∧
          n.Captures (d.Means g) removed r)) (g.survivors level rs) ns

/-- Every pointer of a decoded record is captured as what it means in the document, wherever
the record stands and whatever stands before it. This holds of the nodes as they are
lifted; references to nodes that are not in the graph are left out of them later. Ids
need to differ between levels only, and the bodies of iteration records that cannot be
decoded count as reached. -/
theorem ofDocument?_captures {p : Platform} {g : Registry} (hg : Registry.Derived p g)
    {d : Document} (hacyclic : d.SectionsAcyclic g) (hids : d.IdsOnOneLevel g)
    (hstarts : d.StartsOwn g) :
    ∃ t l, d.Unrolls g d.records t ∧ ofDocument? g d = some l ∧ l.Captures g d t := by
  have hbuiltIns := hg.usesBuiltIns
  obtain ⟨l, hlifted⟩ := exists_ofDocument? hbuiltIns hacyclic
  obtain ⟨resolver, t, -, hresolver, ht, -, -⟩ := ofDocument?_decodes hbuiltIns hlifted
  obtain ⟨early, hremoved, hfills⟩ := ofDocument?_ends hbuiltIns hlifted hresolver ht
  have hmeans := Survey.means_resolve hresolver hids hstarts
  refine ⟨t, l, ht, hlifted, fun level rs hlist => ?_⟩
  obtain ⟨u, hu, hunrolls⟩ := ht.exists_of_lists hlist
  obtain ⟨⟨place, ns⟩, hlevel, hplace, hnodes⟩ := exists_of_forall₂_of_mem hfills hu
  obtain rfl : level = place := hplace.symm
  refine ⟨ns, hlevel, hunrolls.roots_eq ▸ hnodes.imp fun r n hmade => ?_⟩
  have hmade : Lift.MadeInTurn g resolver early (Document.ends g t) level r n := hmade
  refine ⟨hmade.becomes.id_eq hbuiltIns, fun hface => ?_⟩
  obtain ⟨removed, hbefore, hdecode⟩ :=
    hmade.exists_decode hbuiltIns hlifted ht hremoved hface
  exact ⟨hmade.becomes.kind?_eq hbuiltIns hface, removed, hbefore,
    Registry.captures_decode hbuiltIns hmeans hdecode⟩

end Lifted

/-- A document whose nodes take values from a loop before the record of the loop, inside the
body before its loop-start node. The end node also takes one from a record without a
decoder. -/
def Document.earlyReaders : Document :=
  ⟨[{ Record.bare "done" "end" with
      inputs := [⟨"all", none, .pointer ⟨"each", "result_list"⟩⟩,
        ⟨"odd", none, .pointer ⟨"odd", "x"⟩⟩] },
    { Record.bare "each" "iteration" with
      params := [("iterator", Pointer.toJson ⟨"begin", "items"⟩),
        ("output", Pointer.toJson ⟨"pick", "result"⟩), ("start_node_id", .str "first")]
      outputs := [⟨"result_list", none⟩]
      blocks := some ⟨[
        { Record.bare "pick" "code" with inputs := [⟨"item", none, .pointer ⟨"first", "item"⟩⟩] },
        { Record.bare "check" "if-else" with
          params := [("cases", .arr [.obj [("conditions", .arr [.obj
            [("left", Pointer.toJson ⟨"first", "result_list"⟩)]])]])] },
        .bare "first" "iteration-start"], []⟩ },
    .bare "begin" "start", .bare "odd" "unknown"],
   [], ∅⟩

/-- Inside the loop, the pointers to its loop-start node mean the loop itself. The end node
keeps the input from the loop and leaves out the one from the placeholder. -/
theorem Lifted.ofDocument?_captures_earlyReaders :
    Document.earlyReaders.SectionsAcyclic (.withDefaults .dify) ∧
      Document.earlyReaders.IdsOnOneLevel (.withDefaults .dify) ∧
      Document.earlyReaders.StartsOwn (.withDefaults .dify) ∧
      ∃ t l, Document.earlyReaders.Unrolls (.withDefaults .dify)
          Document.earlyReaders.records t ∧
        ofDocument? (.withDefaults .dify) Document.earlyReaders = some l ∧
        l.Captures (.withDefaults .dify) Document.earlyReaders t ∧
        l.levels.map (fun e => e.2.map fun n => n.references.map fun r => (r.node, r.output)) =
          [[[("each", "item")], [("each", "output")]],
            [[("each", "output")], [("begin", "items"), ("pick", "result")], [], []]] := by
  have hacyclic : Document.earlyReaders.SectionsAcyclic (.withDefaults .dify) :=
    Document.sectionsAcyclic_of_eq_nil rfl
  have hids : Document.earlyReaders.IdsOnOneLevel (.withDefaults .dify) :=
    Document.idsOnOneLevel_of_unroll? 6 (by decide +kernel)
  have hstarts : Document.earlyReaders.StartsOwn (.withDefaults .dify) :=
    Document.startsOwn_of_unroll? 6 (by decide +kernel)
  obtain ⟨t, l, ht, hlifted, hcaptures⟩ := ofDocument?_captures .defaults hacyclic hids hstarts
  have hreferences : (ofDocument? (.withDefaults .dify) Document.earlyReaders).map (fun l =>
      l.levels.map fun e => e.2.map fun n => n.references.map fun r => (r.node, r.output)) =
        some [[[("each", "item")], [("each", "output")]],
          [[("each", "output")], [("begin", "items"), ("pick", "result")], [], []]] := by
    decide +kernel
  rw [hlifted] at hreferences
  exact ⟨hacyclic, hids, hstarts, t, l, ht, hlifted, hcaptures, Option.some.inj hreferences⟩

end WorkflowGraph
