/-
# Reading a converted graph back

A converted graph comes back from its JSON output as it was, as long as the coordinates of
its nodes are finite. They are the only numbers in which a conversion lets an infinity or a
NaN through: an export may spell a coordinate as a text, and the words for infinities and
NaNs are read like any other numeral. JSON has no notation for such a number, null is
written in its place, and no reader of a coordinate takes null.
-/

import WorkflowGraph.Proofs.WritableNodes

namespace WorkflowGraph

/-! ## Levels that can be written -/

/-- The nodes and edges of a level can be written, whatever the bodies of the nodes are. -/
structure Graph.LevelWritable (level : Graph) : Prop where
  nodes : ∀ n ∈ level.nodes, n.HoldsFinite
  shown : ∀ n ∈ level.nodes, n.presentation.isWritable = true
  entries : ∀ n ∈ level.nodes, ∀ e ∈ n.entryEdges, e.isWritable = true
  edges : ∀ e ∈ level.edges, e.isWritable = true

mutual
theorem Graph.isWritable_of_levels : (g : Graph) →
    (∀ level, g.HasLevel level → level.LevelWritable) → g.isWritable = true
  | ⟨nodes, edges⟩, hlevels => by
      have hself := hlevels _ .self
      rw [Graph.isWritable, Bool.and_eq_true]
      refine ⟨Node.allWritable_of_levels nodes fun n hn => ?_, List.all_eq_true.mpr hself.edges⟩
      exact ⟨hself.nodes n hn, hself.shown n hn, hself.entries n hn,
        fun loop hloop level hlevel => hlevels level (.body hn hloop hlevel)⟩

theorem Node.allWritable_of_levels : (ns : List Node) →
    (∀ n ∈ ns, n.HoldsFinite ∧ n.presentation.isWritable = true ∧
      (∀ e ∈ n.entryEdges, e.isWritable = true) ∧
        ∀ loop, n.config = .iteration loop → ∀ level, loop.body.HasLevel level →
          level.LevelWritable) → Node.allWritable ns = true
  | [], _ => by
      rw [Node.allWritable]
  | ⟨id, kind, title, config, inputs, outputs, presentation⟩ :: ns, hnodes => by
      obtain ⟨⟨hfinite, hshown, hentries, hbody⟩, hrest⟩ := List.forall_mem_cons.mp hnodes
      have hconfig := Config.isWritable_of_levels config hfinite.config fun loop hloop =>
        ⟨fun e he => hentries e (by
          obtain rfl : config = .iteration loop := hloop
          exact he), hbody loop hloop⟩
      have hinputs : inputs.all Input.isWritable = true := List.all_eq_true.mpr hfinite.inputs
      rw [Node.allWritable, Node.isWritable, hconfig, hinputs,
        Node.allWritable_of_levels ns hrest]
      simpa using hshown

theorem Config.isWritable_of_levels : (config : Config) → config.HoldsFinite →
    (∀ loop, config = .iteration loop → (∀ e ∈ loop.entryEdges, e.isWritable = true) ∧
      ∀ level, loop.body.HasLevel level → level.LevelWritable) → config.isWritable = true
  | .start, _, _ | .finish _, _, _ | .code _, _, _ => by
      simp [Config.isWritable]
  | .llm c, hfinite, _ => by
      rw [Config.isWritable]
      exact hfinite
  | .condition cases, hfinite, _ => by
      rw [Config.isWritable]
      exact List.all_eq_true.mpr hfinite.2
  | .classifier c, hfinite, _ => by
      rw [Config.isWritable]
      exact hfinite.1
  | .iteration ⟨_, _, _, _, entryEdges, body⟩, _, hloop => by
      obtain ⟨hentries, hlevels⟩ := hloop _ rfl
      rw [Config.isWritable, Loop.isWritable, Graph.isWritable_of_levels body hlevels,
        Bool.and_true]
      exact List.all_eq_true.mpr hentries
end

/-! ## Notations that cannot be read -/

namespace Json

namespace Reader

variable {σ : Type}

/-- An object is not read if it lists a value that its field never takes, whatever is read
before. -/
theorem exists_entries_error {fields : List (Field σ)} {f : Field σ} {key : String} {j : Json}
    (hfound : fields.find? (fun f => f.isNamed key) = some f)
    (hfails : ∀ s, ∃ e, f.store j s = .error e) (es : List (String × Json))
    (hlisted : (key, j) ∈ es) : ∀ seen s, ∃ e, entries fields seen es s = .error e := by
  induction es with
  | nil => cases hlisted
  | cons entry es ih =>
      intro seen s
      rcases List.mem_cons.mp hlisted with rfl | hlater
      · obtain ⟨e, he⟩ := hfails s
        unfold entries
        simp only [hfound, he]
        split <;> exact ⟨_, rfl⟩
      · unfold entries
        split
        · exact ih hlater _ _
        · split
          · exact ⟨_, rfl⟩
          · split
            · exact ih hlater _ _
            · exact ⟨_, rfl⟩

end Reader

namespace Layout

variable (L : Layout) {α σ : Type}

/-- The reader makes nothing of a notation, arranged by the layout. -/
def Refuses (read : Reader α) (j : Json) : Prop :=
  ∃ e, read (L.lay j) = .error e

variable {L}

/-- A number without a notation is written as null. -/
theorem refuses_float {x : Binary64} (hx : x.isFinite = false) :
    L.Refuses Reader.float (.ofFloat x) := by
  unfold Refuses ofFloat
  rw [if_neg (by rw [hx]; decide), L.lay_null]
  exact ⟨_, rfl⟩

theorem Refuses.map {β : Type} {read : Reader α} {j : Json} (h : L.Refuses read j) (f : α → β) :
    L.Refuses (fun j => (read j).map f) j := by
  obtain ⟨e, he⟩ := h
  exact ⟨e, congrArg (Except.map f) he⟩

/-- What is written for a value that is present is not taken for its absence, unless it is
written as null. -/
theorem Refuses.option {read : Reader α} {j : Json} (h : L.Refuses read j)
    (hj : L.lay j ≠ .null) : L.Refuses (Reader.option read) j := by
  obtain ⟨e, he⟩ := h
  refine ⟨e, ?_⟩
  unfold Reader.option
  split
  next hnull => exact absurd hnull hj
  next => rw [he]; rfl

theorem exists_all_error {read : Reader α} {items : List Json} {j : Json} (hj : j ∈ items)
    (h : ∃ e, read j = .error e) : ∃ e, Reader.all read items = .error e := by
  induction items with
  | nil => cases hj
  | cons first items ih =>
      rw [Reader.all]
      cases hfirst : read first with
      | error e => exact ⟨e, rfl⟩
      | ok a =>
          rcases List.mem_cons.mp hj with rfl | hlater
          · obtain ⟨e, he⟩ := h
            cases he.symm.trans hfirst
          · obtain ⟨e, he⟩ := ih hlater
            exact ⟨e, by rw [he]; rfl⟩

theorem Refuses.list {read : Reader α} {items : List Json} {j : Json} (hj : j ∈ items)
    (h : L.Refuses read j) : L.Refuses (Reader.list read) (.arr items) := by
  rw [Refuses, L.lay_arr]
  exact exists_all_error (List.mem_map_of_mem hj) h

theorem Refuses.tagged {alternatives : List (Reader.Variant α)} {tag : String} {read : Reader α}
    {j : Json} (h : L.Refuses read j)
    (found : alternatives.find? (fun v => v.name == tag) = some (.carrying tag read)) :
    L.Refuses (Reader.variants alternatives) (.tagged tag j) := by
  rw [Refuses, lay_tagged, Json.tagged, Reader.variants, found]
  exact h

/-- A record is not read if one of its values is not. -/
theorem Refuses.record {read : Reader α} {j : Json} (h : L.Refuses read j) (field : String)
    {name : String} {absence : Reader.Absence} {put : α → σ → σ} {initial : σ}
    {fields : List (Reader.Field σ)} {es : List (String × Json)}
    (hnames : (es.map Prod.fst).Nodup) (hlisted : (field, j) ∈ es)
    (hfound : fields.find? (fun f => f.isNamed field) =
      some (Reader.Field.ofReader absence field read put)) :
    L.Refuses (Reader.record name initial fields) (.obj es) := by
  obtain ⟨arranged, hlay, hperm⟩ := L.lay_obj es hnames
  rw [Refuses, hlay]
  refine Reader.exists_entries_error hfound (fun s => h.map fun a => put a s) arranged ?_ [] initial
  exact hperm.mem_iff.mpr (List.mem_map.mpr ⟨_, hlisted, rfl⟩)

theorem lay_obj_ne_null {fields : List (String × Json)} (hnames : (fields.map Prod.fst).Nodup) :
    L.lay (.obj fields) ≠ .null := by
  obtain ⟨arranged, hlay, -⟩ := L.lay_obj fields hnames
  rw [hlay]
  nofun

/-! ## Positions without a notation -/

theorem refuses_position {p : Position} (h : p.isWritable = false) :
    L.Refuses Position.read p.toJson := by
  unfold Position.isWritable at h
  rcases Bool.and_eq_false_iff.mp h with hx | hy
  · exact (refuses_float hx).record "x" (by simp) List.mem_cons_self rfl
  · exact (refuses_float hy).record "y" (by simp) (by simp) rfl

theorem refuses_presentation {p : Presentation} (h : p.isWritable = false) :
    L.Refuses Presentation.read p.toJson := by
  obtain ⟨position, description⟩ := p
  cases position with
  | none => cases h
  | some position =>
      have hposition : L.Refuses (Reader.option Position.read) position.toJson :=
        (refuses_position h).option (lay_obj_ne_null (by simp))
      exact hposition.record "position" (by simp) List.mem_cons_self rfl

theorem refuses_node {readBody : Reader Graph} {n : Node} (h : n.presentation.isWritable = false) :
    L.Refuses (Node.reader readBody) n.toJson := by
  obtain ⟨id, kind, title, config, inputs, outputs, presentation⟩ := n
  rw [Node.toJson]
  exact (refuses_presentation h).record "meta" (by simp) (by simp) rfl

/-- A node is not read if its body is not. -/
theorem refuses_node_of_body {readBody : Reader Graph} {n : Node} {loop : Loop}
    (hloop : n.config = .iteration loop) (h : L.Refuses readBody loop.body.toJson) :
    L.Refuses (Node.reader readBody) n.toJson := by
  obtain ⟨id, kind, title, config, inputs, outputs, presentation⟩ := n
  obtain rfl : config = .iteration loop := hloop
  have ofLoop : L.Refuses (Loop.reader readBody) loop.toJson := by
    obtain ⟨iterator, output, outputType, parallel, entryEdges, body⟩ := loop
    rw [Loop.toJson]
    exact h.record "body" (by simp) (by simp) rfl
  have ofConfig : L.Refuses (Config.reader readBody) (Config.iteration loop).toJson := by
    rw [Config.toJson]
    exact (ofLoop.map Config.iteration).tagged rfl
  rw [Node.toJson]
  exact ofConfig.record "config" (by simp) (by simp) rfl

/-- However far a reader may descend, it does not read a graph with a node on some level
whose position has no notation. -/
theorem refuses_graphWithin (n : Nat) : ∀ {g level : Graph} {m : Node}, g.HasLevel level →
    m ∈ level.nodes → m.presentation.isWritable = false →
      L.Refuses (Graph.readWithin n) g.toJson := by
  induction n with
  | zero => exact fun _ _ _ => ⟨_, rfl⟩
  | succ n ih =>
      intro g level m hlevel hm hbad
      have ofNode : ∃ node ∈ g.nodes, L.Refuses (Node.reader (Graph.readWithin n)) node.toJson := by
        cases hlevel with
        | self => exact ⟨m, hm, refuses_node hbad⟩
        | body hn hloop hinside =>
            exact ⟨_, hn, refuses_node_of_body hloop (ih hinside hm hbad)⟩
      obtain ⟨node, hnode, hrefuses⟩ := ofNode
      obtain ⟨nodes, edges⟩ := g
      rw [Graph.toJson, listToJson_eq_map]
      exact (hrefuses.list (List.mem_map_of_mem hnode)).record "nodes" (by simp)
        List.mem_cons_self rfl

/-- If a graph could be written but for the positions of its nodes, it is read back exactly
if they can be written, too. -/
theorem restores_graph_iff {g : Graph}
    (hwritable : (∀ n ∈ g.walk, n.presentation.isWritable = true) → g.isWritable = true) :
    ((∃ found, Graph.read (L.lay g.toJson) = .ok found) ↔
      ∀ n ∈ g.walk, n.presentation.isWritable = true) ∧
    ∀ found, Graph.read (L.lay g.toJson) = .ok found → found = g := by
  have hrestores : (∀ n ∈ g.walk, n.presentation.isWritable = true) →
      Graph.read (L.lay g.toJson) = .ok g := fun hshown => restores_graph (hwritable hshown)
  have hshown : ∀ found, Graph.read (L.lay g.toJson) = .ok found →
      ∀ n ∈ g.walk, n.presentation.isWritable = true := by
    intro found hfound n hn
    by_contra hbad
    obtain ⟨level, hlevel, hmem⟩ := Graph.exists_level_of_mem_walk g hn
    obtain ⟨e, he⟩ := refuses_graphWithin (L := L) (L.lay g.toJson).depth hlevel hmem
      (Bool.eq_false_iff.mpr hbad)
    cases he.symm.trans hfound
  refine ⟨⟨fun ⟨found, hfound⟩ => hshown found hfound, fun h => ⟨g, hrestores h⟩⟩, ?_⟩
  intro found hfound
  exact Except.ok.inj (hfound.symm.trans (hrestores (hshown found hfound)))

end Layout

end Json

namespace Conversion

variable {p : Platform} {g : Registry} {exported : Json} {c : Conversion}

/-- Everything in the graph of an export can be written but, maybe, the positions of its
nodes: literals are finite because the values of the export are, temperatures because the
adapters leave others out, and handles select branches that a machine word can count. -/
theorem isWritable_of_ofJson (hg : Registry.Derived p g) (hbounded : exported.isBounded = true)
    (hc : ofJson g exported = .ok c)
    (hshown : ∀ n ∈ c.graph.walk, n.presentation.isWritable = true) :
    c.graph.isWritable = true := by
  obtain ⟨d, hparse, hconverts⟩ := exists_parse_of_ofJson hc
  obtain ⟨resolver, t, -, -, hmade⟩ := madeOf_of_ok hg.usesBuiltIns hconverts
  refine Graph.isWritable_of_levels _ fun level hlevel => ?_
  have hmadeOf := hmade level hlevel
  have hfinite : ∀ n ∈ level.nodes, n.HoldsFinite := by
    intro n hn
    obtain ⟨place, r, own, part, present, hr, hown, hfinishes⟩ := hmadeOf.nodes n hn
    have hbound := Platform.isBounded_of_parseDocument hbounded hparse hr
    exact (hown.holdsFinite hg.usesBuiltIns hbound).finishes hfinishes
  refine ⟨hfinite, fun n hn => hshown n (Graph.mem_walk_of_hasLevel hlevel hn), ?_, ?_⟩
  · intro n hn e he
    obtain ⟨link, rfl⟩ := hmadeOf.entries n hn e he
    rfl
  · intro e he
    obtain ⟨link, -, n, hn, -, rfl⟩ := hmadeOf.edges e he
    exact Handle.isWritable_ofSpelling _ _ (hfinite n hn)

/-- A converted graph is read back from its JSON output, in declared and in sorted order,
exactly if the position of every node is finite, and then it is the same graph. -/
theorem ofJson_restores_iff (hg : Registry.Derived p g) (hbounded : exported.isBounded = true)
    (hc : ofJson g exported = .ok c) : ∀ j ∈ [c.graph.toJson, c.graph.toJson.sorted],
      ((∃ found, Graph.read j = .ok found) ↔
        ∀ n ∈ c.graph.walk, n.presentation.isWritable = true) ∧
      ∀ found, Graph.read j = .ok found → found = c.graph := by
  have hwritable := isWritable_of_ofJson hg hbounded hc
  refine List.forall_mem_cons.mpr ⟨?_, List.forall_mem_singleton.mpr ?_⟩
  · exact Json.Layout.restores_graph_iff (L := .declared) hwritable
  · exact Json.Layout.restores_graph_iff (L := .ascending) hwritable

/-- Numbers spelled as texts: a coordinate, a temperature that is no finite number, and
beside them a constant. -/
def spelledNumbers : Json :=
  .obj [("nodes", .arr
    [.obj [("id", .str "ask"), ("position", .obj [("x", .str " 2.5e1 "), ("y", .nat 3)]),
      ("data", .obj [("type", .str "llm"), ("model", .obj [("completion_params",
        .obj [("temperature", .str "inf")])])])],
     .obj [("id", .str "done"), ("data", .obj [("type", .str "end"), ("outputs",
      .arr [.obj [("variable", .str "x"), ("value", .num (.float ⟨0x3fe0000000000000⟩))]])])]])]

theorem ofJson_restores_iff_spelledNumbers :
    Registry.Derived .dify (.withDefaults .dify) ∧ spelledNumbers.isBounded = true ∧
      ∃ c, ofJson (.withDefaults .dify) spelledNumbers = .ok c ∧
        (∀ n ∈ c.graph.walk, n.presentation.isWritable = true) ∧
        ∀ j ∈ [c.graph.toJson, c.graph.toJson.sorted],
          ((∃ found, Graph.read j = .ok found) ↔
            ∀ n ∈ c.graph.walk, n.presentation.isWritable = true) ∧
          ∀ found, Graph.read j = .ok found → found = c.graph := by
  have hbounded : spelledNumbers.isBounded = true := by decide +kernel
  have hshown : (ofJson (.withDefaults .dify) spelledNumbers).toOption.any (fun c =>
      c.graph.walk.all fun n => n.presentation.isWritable) = true := by decide +kernel
  obtain ⟨c, hc, hall⟩ := exists_ok_of_any hshown
  exact ⟨.defaults, hbounded, c, hc, List.all_eq_true.mp hall,
    ofJson_restores_iff .defaults hbounded hc⟩

/-- A node that is drawn nowhere: its abscissa is spelled as a NaN. -/
def strayNode : Json :=
  .obj [("nodes", .arr
    [.obj [("id", .str "a"), ("position", .obj [("x", .str "nan"), ("y", .nat 0)]),
      ("data", .obj [("type", .str "start")])]]),
   ("edges", .arr [])]

theorem not_restores_strayNode : strayNode.isBounded = true ∧
    ∃ c, ofJson (.withDefaults .dify) strayNode = .ok c ∧
      ∀ found, Graph.read c.graph.toJson.sorted ≠ .ok found := by
  have hfails : (ofJson (.withDefaults .dify) strayNode).toOption.any (fun c =>
      (Graph.read c.graph.toJson.sorted).toOption.isNone) = true := by decide +kernel
  obtain ⟨c, hc, hnone⟩ := exists_ok_of_any hfails
  refine ⟨by decide +kernel, c, hc, fun found hfound => ?_⟩
  rw [hfound] at hnone
  cases hnone

end Conversion

end WorkflowGraph
