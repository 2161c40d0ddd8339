/-
# Conversion is the direct recursion

The bodies of a document could be converted in place: take the records of a level in
order, skip the loop-start nodes, decode the others, and give each iteration node the
level of its own located body. The conversion works on a flat list of levels instead,
decodes end nodes late and finds each body again by the id of its loop. The graph it
returns has the shape of the direct recursion, provided that no two loops on different
levels share an id.
-/

import WorkflowGraph.Proofs.AssembledGraph

namespace WorkflowGraph

namespace Graph

mutual

/-- The faces of the nodes of a graph, each iteration node with the outline of its body. -/
def outline : Graph → Nested Face
  | ⟨nodes, _⟩ => outlineNodes nodes

/-- The faces of a list of nodes, each with the outline of its body. -/
def outlineNodes : List Node → Nested Face
  | [] => .nil
  | ⟨id, kind, title, config, _, outputs, _⟩ :: ns =>
    match outlineBody config with
    | some body => .loop ⟨id, kind, title, outputs⟩ body (outlineNodes ns)
    | none => .leaf ⟨id, kind, title, outputs⟩ (outlineNodes ns)

/-- The outline of the body that settings hold. -/
def outlineBody : Config → Option (Nested Face)
  | .iteration ⟨_, _, _, _, _, body⟩ => some (outline body)
  | _ => none

end

theorem outlineBody_iteration (loop : Loop) :
    outlineBody (.iteration loop) = some loop.body.outline := by
  cases loop
  rw [outlineBody]

theorem outlineBody_of_ne {config : Config} (hconfig : config.kind ≠ .iteration) :
    outlineBody config = none := by
  cases config with
  | iteration loop => exact absurd rfl hconfig
  | _ => simp only [outlineBody]

theorem outlineNodes_cons (n : Node) (ns : List Node) :
    outlineNodes (n :: ns) =
      match outlineBody n.config with
      | some body => .loop n.face body (outlineNodes ns)
      | none => .leaf n.face (outlineNodes ns) := by
  cases n
  rw [outlineNodes]
  rfl

end Graph

namespace Document

/-- The records of the located body of a loop: those on the loop itself, else those in
the section of its id, else none. -/
def located (d : Document) (r : Record) : List Record :=
  match d.body? r with
  | some body => body.records
  | none => []

/-- The direct recursion: the shape of a level is read off its records in order. A record
that leaves nothing on its level is passed over, and an iteration node holds the level of
the located body of its record. -/
inductive Shape (g : Registry) (d : Document) : Level → List Record → Nested Face → Prop
  | nil {level : Level} : Shape g d level [] .nil
  | skip {level : Level} {r : Record} {rs : List Record} {s : Nested Face} :
      g.survivor? level r = none → Shape g d level rs s → Shape g d level (r :: rs) s
  | leaf {level : Level} {r : Record} {rs : List Record} {face : Face} {s : Nested Face} :
      g.survivor? level r = some face → face.kind ≠ .iteration → Shape g d level rs s →
        Shape g d level (r :: rs) (.leaf face s)
  | loop {level : Level} {r : Record} {rs : List Record} {face : Face}
      {body s : Nested Face} :
      g.survivor? level r = some face → face.kind = .iteration →
        Shape g d (.body r.id) (d.located r) body → Shape g d level rs s →
          Shape g d level (r :: rs) (.loop face body s)

/-- The direct recursion gives a list of records at most one shape. -/
theorem Shape.unique {g : Registry} {d : Document} {level : Level} {rs : List Record}
    {s : Nested Face} (hs : d.Shape g level rs s) :
    ∀ {s' : Nested Face}, d.Shape g level rs s' → s = s' := by
  induction hs with
  | nil =>
      intro s' hs'
      cases hs'
      rfl
  | skip hnone _ ih =>
      intro s' hs'
      cases hs' with
      | skip _ hrest => exact ih hrest
      | leaf hsome => cases hnone.symm.trans hsome
      | loop hsome => cases hnone.symm.trans hsome
  | leaf hsome hkind _ ih =>
      intro s' hs'
      cases hs' with
      | skip hnone => cases hnone.symm.trans hsome
      | leaf hother _ hrest =>
          obtain rfl := Option.some.inj (hsome.symm.trans hother)
          rw [ih hrest]
      | loop hother hiteration =>
          obtain rfl := Option.some.inj (hsome.symm.trans hother)
          exact absurd hiteration hkind
  | loop hsome hkind _ _ ihBody ihRest =>
      intro s' hs'
      cases hs' with
      | skip hnone => cases hnone.symm.trans hsome
      | leaf hother hplain =>
          obtain rfl := Option.some.inj (hsome.symm.trans hother)
          exact absurd hkind hplain
      | loop hother _ hbody hrest =>
          obtain rfl := Option.some.inj (hsome.symm.trans hother)
          rw [ihBody hbody, ihRest hrest]

end Document

namespace Nested

/-- The faces of a nesting of nodes; an iteration node without a list holds the empty
one. -/
def faces : Nested Node → Nested Face
  | .nil => .nil
  | .leaf n rest =>
    if n.kind = .iteration then .loop n.face .nil rest.faces else .leaf n.face rest.faces
  | .loop n inner rest => .loop n.face inner.faces rest.faces

theorem faces_clean (present : List String) (f : Nested Node) :
    (f.clean present).faces = f.faces := by
  unfold clean
  induction f with
  | nil => rfl
  | leaf n rest ih => simp [map, faces, ih, Dangling.cleanNode_face]
  | loop n inner rest ihInner ihRest =>
      simp [map, faces, ihInner, ihRest, Dangling.cleanNode_face]

end Nested

namespace Assembly

open WorkflowGraph.Graph

variable (p : Platform) (part : EdgePartition)

/-- The graph of a nesting has the faces of the nesting. -/
theorem outlineNodes_attached {f : Nested Node} (hfresh : f.IsFresh) :
    outlineNodes (attached p part f) = f.faces := by
  induction hfresh with
  | nil => rfl
  | @leaf n rest hn _ ih =>
      unfold attached Nested.faces
      split
      next hkind =>
          obtain ⟨loop, hconfig, hbody, -⟩ := hn.withBody_config hkind part .empty
          rw [outlineNodes_cons, hconfig, outlineBody_iteration, hbody, Node.withBody_face, ih]
          rfl
      next hkind => rw [outlineNodes_cons, outlineBody_of_ne (hn.config ▸ hkind), ih]
  | @loop n inner rest hn hkind _ _ ihInner ihRest =>
      obtain ⟨loop, hconfig, hbody, -⟩ := hn.withBody_config hkind part
        ⟨attached p part inner, edges p part (.body n.id) (attached p part inner)⟩
      rw [attached, Nested.faces, outlineNodes_cons, hconfig, outlineBody_iteration, hbody,
        Node.withBody_face, ihRest, outline, ihInner]

end Assembly

namespace Lift

variable {g : Registry} {d : Document} {resolver : Resolver}

/-- The nodes of the nesting of a list of records have the shape of the list. -/
theorem Decodes.shape (hg : g.UsesBuiltIns) {level : Level} {t : Nested Record}
    {f : Nested Node} (hdecodes : Decodes g resolver level t f) :
    ∀ rs, d.Unrolls g rs t → d.Shape g level rs f.faces := by
  induction hdecodes with
  | nil =>
      intro rs hunrolls
      cases hunrolls
      exact .nil
  | skip hnone _ ih =>
      intro rs hunrolls
      cases hunrolls with
      | leaf _ hrest => exact .skip hnone (ih _ hrest)
  | @leaf level r n t f hn _ ih =>
      intro rs hunrolls
      cases hunrolls with
      | leaf hclosed hrest =>
          unfold Nested.faces
          split
          next hkind =>
              have hloop := (hn.kind_eq_iteration_iff hg).mp hkind
              have hlocated : d.located r = [] := by
                have hbody : d.body? r = none := by simpa [Document.opened?, hloop] using hclosed
                simp [Document.located, hbody]
              exact .loop (hn.survivor?_eq hg) hkind (hlocated ▸ .nil) (ih _ hrest)
          next hkind => exact .leaf (hn.survivor?_eq hg) hkind (ih _ hrest)
  | @loop level r n inner t body f hloop hn _ _ ihInner ihRest =>
      intro rs hunrolls
      cases hunrolls with
      | @loop _ _ blocks _ _ hopen hinner hrest =>
          have hlocated : d.located r = blocks.records := by
            simp [Document.located, (Document.opened?_eq_some_iff.mp hopen).2]
          exact .loop (hn.survivor?_eq hg) ((hn.kind_eq_iteration_iff hg).mpr hloop)
            (hlocated ▸ ihInner _ hinner) (ihRest _ hrest)

end Lift

namespace Conversion

variable {p : Platform} {g : Registry} {d : Document} {c : Conversion}

/-- A graph that was rebuilt has the shape of the direct recursion. -/
theorem Rebuilt.shape (hg : g.UsesBuiltIns) {l : Lifted} {resolver : Resolver}
    {t : Nested Record} {f : Nested Node} (hunrolls : d.Unrolls g d.records t)
    (hdecodes : Lift.Decodes g resolver .root t f) (hrebuilt : Rebuilt g d l t f) :
    d.Shape g .root d.records (assemble g.platform l).1.outline := by
  rw [hrebuilt.graph, Assembly.graph, Graph.outline,
    Assembly.outlineNodes_attached _ _ ((hdecodes.isFresh hg).clean _), Nested.faces_clean]
  exact hdecodes.shape hg _ hunrolls

/-- Taking a document apart into levels and putting the levels together again gives the
nesting of the direct recursion: at every depth the ids, the kinds, the titles, the
outputs and the order of the nodes are those of the records that survive, late end nodes
among them, and every iteration node holds the level of its own located body. -/
theorem ofDocument_shape (hg : Registry.Derived p g) (hapart : d.LoopsApart g)
    (hc : ofDocument g d = .ok c) : d.Shape g .root d.records c.graph.outline := by
  have hbuiltIns := hg.usesBuiltIns
  obtain ⟨_, l, hlifted, hvalid, rfl⟩ := ofDocument_eq_ok_iff.mp hc
  obtain ⟨resolver, t, f, hunrolls, hdecodes, hmirrors⟩ :=
    Lifted.ofDocument?_mirrors hbuiltIns hlifted
  have hrebuilt := rebuilt_of_loopsApart hbuiltIns hapart hunrolls hdecodes hmirrors
    (Or.inr hvalid)
  exact hrebuilt.shape hbuiltIns hunrolls hdecodes

theorem ofDocument_shape_nestedLoops :
    Registry.Derived .coze (.withDefaults .coze) ∧
      Document.nestedLoops.LoopsApart (.withDefaults .coze) ∧
        ∃ c, ofDocument (.withDefaults .coze) Document.nestedLoops = .ok c ∧
          Document.nestedLoops.Shape (.withDefaults .coze) .root Document.nestedLoops.records
            c.graph.outline := by
  obtain ⟨c, hc⟩ := exists_of_isOk (g := .withDefaults .coze) (d := Document.nestedLoops)
    (by decide +kernel)
  exact ⟨.defaults, Document.loopsApart_nestedLoops, c, hc,
    ofDocument_shape .defaults Document.loopsApart_nestedLoops hc⟩

end Conversion

end WorkflowGraph
