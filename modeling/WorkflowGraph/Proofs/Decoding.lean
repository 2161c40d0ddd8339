/-
# What the decoders of the library build

A registry made from that of the library by mapping and removing tags holds decoders
of the library only. What such a decoder builds is the same in every context, apart
from the references that the node captures: whether the record can be decoded, and the
id, the kind, the title and the outputs of its node. That part is the face of a node.
-/

import WorkflowGraph.Conversion.Harvest

namespace WorkflowGraph

namespace Registry

/-- The registries made from that of the library for a platform by mapping tags to kinds
and by taking tags away. -/
inductive Derived (p : Platform) : Registry → Prop
  | defaults : Derived p (.withDefaults p)
  | mapTag {g : Registry} (tag : String) (kind : NodeKind) :
      Derived p g → Derived p (g.register tag (.builtIn kind))
  | withoutTag {g : Registry} (tag : String) : Derived p g → Derived p (g.unregister tag)

/-- A registry that holds decoders of the library only. -/
def UsesBuiltIns (g : Registry) : Prop :=
  ∀ tag d, Table.get? tag g.decoders = some d → d = .builtIn d.kind

theorem usesBuiltIns_register {g : Registry} (hg : g.UsesBuiltIns) (tag : String)
    (kind : NodeKind) : (g.register tag (.builtIn kind)).UsesBuiltIns := by
  intro other d hd
  simp only [register, Table.get?_insert] at hd
  split at hd
  · obtain rfl := Option.some.inj hd
    cases kind <;> rfl
  · exact hg other d hd

theorem usesBuiltIns_unregister {g : Registry} (hg : g.UsesBuiltIns) (tag : String) :
    (g.unregister tag).UsesBuiltIns := by
  intro other d hd
  simp only [unregister, Table.get?_erase] at hd
  split at hd
  · cases hd
  · exact hg other d hd

private theorem usesBuiltIns_foldl (entries : List (String × NodeKind)) {g : Registry}
    (hg : g.UsesBuiltIns) :
    (entries.foldl (fun g entry => g.register entry.1 (.builtIn entry.2)) g).UsesBuiltIns := by
  induction entries generalizing g with
  | nil => exact hg
  | cons entry rest ih => exact ih (usesBuiltIns_register hg entry.1 entry.2)

private theorem platform_foldl (entries : List (String × NodeKind)) (g : Registry) :
    (entries.foldl (fun g entry => g.register entry.1 (.builtIn entry.2)) g).platform =
      g.platform := by
  induction entries generalizing g with
  | nil => rfl
  | cons entry rest ih => exact ih _

/-- Mapping and removing tags never brings in a decoder of another origin. -/
theorem Derived.usesBuiltIns {p : Platform} {g : Registry} (hg : Derived p g) :
    g.UsesBuiltIns := by
  induction hg with
  | defaults =>
      apply usesBuiltIns_foldl p.nodeTags
      intro tag d hd
      cases hd
  | mapTag tag kind _ ih => exact usesBuiltIns_register ih tag kind
  | withoutTag tag _ ih => exact usesBuiltIns_unregister ih tag

/-- Mapping and removing tags keeps the platform. -/
theorem Derived.platform_eq {p : Platform} {g : Registry} (hg : Derived p g) :
    g.platform = p := by
  induction hg with
  | defaults => exact platform_foldl p.nodeTags (empty p)
  | mapTag _ _ _ ih => exact ih
  | withoutTag _ _ ih => exact ih

/-- Of entries with different tags, each is found under its tag after all were entered. -/
theorem get?_decoders_foldl (entries : List (String × NodeKind))
    (htags : (entries.map Prod.fst).Nodup) (tag : String) (g : Registry) :
    Table.get? tag (entries.foldl (fun g entry => g.register entry.1 (.builtIn entry.2))
        g).decoders =
      (((entries.find? fun entry => entry.1 == tag).map fun entry => .builtIn entry.2).or
        (Table.get? tag g.decoders)) := by
  induction entries generalizing g with
  | nil => simp
  | cons entry entries ih =>
      obtain ⟨hnew, hrest⟩ := List.nodup_cons.mp htags
      rw [List.foldl_cons, ih hrest]
      by_cases htag : entry.1 = tag
      · have hnone : (entries.find? fun entry => entry.1 == tag) = none := by
          refine List.find?_eq_none.mpr fun other hother hsame => hnew ?_
          rw [htag, ← eq_of_beq hsame]
          exact List.mem_map_of_mem hother
        simp [hnone, htag, register, Table.get?_insert]
      · simp [htag, register, Table.get?_insert]

/-- The library has one decoder for each tag in the table of a platform, and no others. -/
theorem get?_decoders_withDefaults (p : Platform) (tag : String) :
    Table.get? tag (withDefaults p).decoders = (p.kindOfTag? tag).map Decoder.builtIn := by
  have htags : (p.nodeTags.map Prod.fst).Nodup := by cases p <;> decide
  rw [withDefaults, get?_decoders_foldl _ htags, Platform.kindOfTag?]
  simp [empty, Option.map_map, Function.comp_def]

/-- The default decoder of a tag announces the kind that the tag stands for. -/
theorem kind?_withDefaults (p : Platform) (tag : String) :
    (withDefaults p).kind? tag = p.kindOfTag? tag := by
  have hkind : Decoder.kind ∘ Decoder.builtIn = id := by
    funext kind
    cases kind <;> rfl
  rw [kind?, get?_decoders_withDefaults, Option.map_map, hkind, Option.map_id_fun, id]

theorem mem_nodeTags_of_kindOfTag? {p : Platform} {tag : String} {kind : NodeKind}
    (hkind : p.kindOfTag? tag = some kind) : (tag, kind) ∈ p.nodeTags := by
  obtain ⟨entry, hentry, rfl⟩ := Option.map_eq_some_iff.mp hkind
  have htag := List.find?_some hentry
  obtain rfl := beq_iff_eq.mp htag
  exact List.mem_of_find?_eq_some hentry

end Registry

/-- What of a node does not depend on the rest of its document. -/
structure Face where
  id : String
  kind : NodeKind
  title : String
  outputs : List Output
  deriving DecidableEq, Inhabited, Repr

namespace Node

/-- The face of a node. -/
def face (n : Node) : Face :=
  ⟨n.id, n.kind, n.title, n.outputs⟩

/-- A node as a decoder leaves it: its settings are of its kind, its outputs have
different names, and nothing is inside it yet. -/
structure IsFresh (n : Node) : Prop where
  config : n.config.kind = n.kind
  outputs : (n.outputs.map Output.name).Nodup
  loop : ∀ loop, n.config = .iteration loop → loop.entryEdges = [] ∧ loop.body = .empty

end Node

namespace DecodeContext

/-- Outputs keep the first declaration of each name only. -/
theorem nodup_outputsAfter (seen : List String) (os : List RecordOutput) :
    ((outputsAfter seen os).map Output.name).Nodup ∧
      ∀ o ∈ outputsAfter seen os, o.name ∉ seen := by
  induction os generalizing seen with
  | nil => simp [outputsAfter]
  | cons o os ih =>
      unfold outputsAfter
      split
      next => exact ih seen
      next hnew =>
          obtain ⟨hnodup, hfresh⟩ := ih (o.name :: seen)
          refine ⟨?_, ?_⟩
          · rw [List.map_cons, List.nodup_cons]
            refine ⟨fun hmem => ?_, hnodup⟩
            obtain ⟨other, hother, hname⟩ := List.mem_map.mp hmem
            exact hfresh other hother (hname ▸ List.mem_cons_self)
          · intro other hother
            rcases List.mem_cons.mp hother with rfl | htail
            · simpa using hnew
            · exact fun hseen => hfresh other htail (List.mem_cons_of_mem _ hseen)

theorem nodup_outputs (os : List RecordOutput) : ((outputs os).map Output.name).Nodup :=
  (nodup_outputsAfter [] os).1

/-- The face of a decoded node is read off its record. -/
theorem face_node (ctx : DecodeContext) (r : Record) (config : Config) :
    (ctx.node r config).face = ⟨r.id, config.kind, r.displayTitle, outputs r.outputs⟩ :=
  rfl

theorem isFresh_node (ctx : DecodeContext) (r : Record) {config : Config}
    (hloop : ∀ loop, config = .iteration loop → loop.entryEdges = [] ∧ loop.body = .empty) :
    (ctx.node r config).IsFresh where
  config := rfl
  outputs := nodup_outputs r.outputs
  loop := hloop

end DecodeContext

namespace Decoder

/-- What comes of decoding a record, whatever the context: always the same error, or
always a fresh node with one face. -/
def Settles (attempt : DecodeContext → Except DecodeError Node) (kind : NodeKind)
    (r : Record) : Prop :=
  (∃ e, ∀ ctx, attempt ctx = .error e) ∨
    ∃ face : Face, face.id = r.id ∧ face.kind = kind ∧
      ∀ ctx, ∃ n, attempt ctx = .ok n ∧ n.face = face ∧ n.IsFresh

/-- A decoder that first reads the parameters of a record, and then cannot fail, settles
the record if all nodes it may build have one face. -/
private theorem settles_of_read {α : Type} (reader : Json.Reader α) (kind : NodeKind)
    (r : Record) (build : DecodeContext → α → Node) (faceOf : α → Face)
    (hid : ∀ a, (faceOf a).id = r.id) (hkind : ∀ a, (faceOf a).kind = kind)
    (hbuild : ∀ ctx a, (build ctx a).face = faceOf a ∧ (build ctx a).IsFresh) :
    Settles (fun ctx => (Params.read reader r).bind fun a => .ok (build ctx a)) kind r := by
  unfold Settles
  cases Params.read reader r with
  | error e => exact Or.inl ⟨e, fun _ => rfl⟩
  | ok a => exact Or.inr ⟨faceOf a, hid a, hkind a, fun ctx => ⟨build ctx a, rfl, hbuild ctx a⟩⟩

/-- The face of a node that gets an output of a given name if it declares none. -/
private def faceWithOutput (name : String) (r : Record) (kind : NodeKind) : Face :=
  ⟨r.id, kind, r.displayTitle,
    if (DecodeContext.outputs r.outputs).isEmpty then [⟨name, .string⟩]
    else DecodeContext.outputs r.outputs⟩

private theorem withDefaultOutput_spec (name : String) (ctx : DecodeContext) (r : Record)
    (config : Config) (hloop : ∀ loop, config ≠ .iteration loop) :
    (withDefaultOutput name (ctx.node r config)).face = faceWithOutput name r config.kind ∧
      (withDefaultOutput name (ctx.node r config)).IsFresh := by
  have hnode : (ctx.node r config).IsFresh :=
    ctx.isFresh_node r fun loop h => absurd h (hloop loop)
  unfold withDefaultOutput faceWithOutput
  by_cases hnone : (DecodeContext.outputs r.outputs).isEmpty = true
  · have hempty : (ctx.node r config).outputs.isEmpty = true := hnone
    rw [if_pos hempty, if_pos hnone]
    exact ⟨rfl, ⟨rfl, by simp, hnode.loop⟩⟩
  · have hsome : ¬ (ctx.node r config).outputs.isEmpty = true := hnone
    rw [if_neg hsome, if_neg hnone]
    exact ⟨rfl, hnode⟩

/-- The decoders of the library settle every record. -/
theorem settles_builtIn (kind : NodeKind) (r : Record) :
    Settles ((builtIn kind).decode · r) kind r := by
  cases kind with
  | start =>
      refine Or.inr ⟨⟨r.id, .start, r.displayTitle, DecodeContext.outputs r.outputs⟩, rfl, rfl,
        fun ctx => ?_⟩
      exact ⟨_, rfl, rfl, ctx.isFresh_node r nofun⟩
  | finish =>
      refine settles_of_read Params.finish .finish r _
        (fun _ => ⟨r.id, .finish, r.displayTitle, DecodeContext.outputs r.outputs⟩)
        (fun _ => rfl) (fun _ => rfl) fun ctx answer => ⟨rfl, ?_⟩
      exact ⟨rfl, DecodeContext.nodup_outputs r.outputs, nofun⟩
  | llm =>
      exact settles_of_read Params.llm .llm r _ (fun _ => faceWithOutput "text" r .llm)
        (fun _ => rfl) (fun _ => rfl)
        fun ctx config => withDefaultOutput_spec "text" ctx r (.llm config) nofun
  | code =>
      exact settles_of_read Params.code .code r _
        (fun _ => ⟨r.id, .code, r.displayTitle, DecodeContext.outputs r.outputs⟩)
        (fun _ => rfl) (fun _ => rfl)
        fun ctx config => ⟨ctx.face_node r _, ctx.isFresh_node r nofun⟩
  | condition =>
      refine settles_of_read Params.condition .condition r _
        (fun _ => ⟨r.id, .condition, r.displayTitle, DecodeContext.outputs r.outputs⟩)
        (fun _ => rfl) (fun _ => rfl) fun ctx cases => ?_
      exact ⟨ctx.face_node r _, ctx.isFresh_node r nofun⟩
  | classifier =>
      refine settles_of_read Params.classifier .classifier r _
        (fun _ => faceWithOutput "class_name" r .classifier)
        (fun _ => rfl) (fun _ => rfl) fun ctx p => ?_
      exact withDefaultOutput_spec "class_name" ctx r _ nofun
  | iteration =>
      refine settles_of_read Params.iteration .iteration r _
        (fun p => ⟨r.id, .iteration, r.displayTitle,
          [⟨iterationOutput, iterationOutputType p r⟩]⟩)
        (fun _ => rfl) (fun _ => rfl) fun ctx p => ⟨rfl, rfl, by simp, ?_⟩
      intro loop hloop
      obtain rfl := Config.iteration.inj hloop
      exact ⟨rfl, rfl⟩

end Decoder

namespace Registry

variable {g : Registry}

/-- The face of the node to which a record is decoded, if it can be decoded. -/
def face? (g : Registry) (r : Record) : Option Face :=
  match g.decode ⟨g.platform, .empty, []⟩ r with
  | .ok n => some n.face
  | .error _ => none

/-- What a record becomes in a registry of built-in decoders is settled by its tag. -/
theorem decode_cases (hg : g.UsesBuiltIns) (r : Record) :
    (∃ e, ∀ ctx, g.decode ctx r = .error e) ∨
      ∃ face : Face, face.id = r.id ∧ g.kind? r.tag = some face.kind ∧
        ∀ ctx, ∃ n, g.decode ctx r = .ok n ∧ n.face = face ∧ n.IsFresh := by
  unfold decode decoder kind?
  cases hd : Table.get? r.tag g.decoders with
  | none => exact Or.inl ⟨.notRegistered r.tag, fun _ => rfl⟩
  | some d =>
      have hbuiltIn := hg r.tag d hd
      have hsettles := Decoder.settles_builtIn d.kind r
      rw [← hbuiltIn] at hsettles
      rcases hsettles with hfails | ⟨face, hid, hkind, hdecodes⟩
      · exact Or.inl hfails
      · exact Or.inr ⟨face, hid, congrArg some hkind.symm, hdecodes⟩

/-- A record without a face fails in every context. -/
theorem decode_of_face?_eq_none (hg : g.UsesBuiltIns) {r : Record} (hface : g.face? r = none) :
    ∃ e, ∀ ctx, g.decode ctx r = .error e := by
  rcases decode_cases hg r with hfails | ⟨face, _, _, hdecodes⟩
  · exact hfails
  · obtain ⟨n, hn, _⟩ := hdecodes ⟨g.platform, .empty, []⟩
    simp [face?, hn] at hface

/-- A record with a face is decoded in every context, to a fresh node of that face. -/
theorem decode_of_face?_eq_some (hg : g.UsesBuiltIns) {r : Record} {face : Face}
    (hface : g.face? r = some face) :
    face.id = r.id ∧ g.kind? r.tag = some face.kind ∧
      ∀ ctx, ∃ n, g.decode ctx r = .ok n ∧ n.face = face ∧ n.IsFresh := by
  rcases decode_cases hg r with ⟨e, hfails⟩ | ⟨found, hid, hkind, hdecodes⟩
  · simp [face?, hfails] at hface
  · obtain ⟨n, hn, hfound, _⟩ := hdecodes ⟨g.platform, .empty, []⟩
    obtain rfl : found = face := by simpa [face?, hn, hfound] using hface
    exact ⟨hid, hkind, hdecodes⟩

/-- Whether a record becomes an iteration node whose body is lifted with it. -/
def isLoop (g : Registry) (r : Record) : Bool :=
  !g.platform.isPseudoTag r.tag && (g.face? r).any fun face => face.kind == .iteration

/-- The face of the node that a record of a level becomes. Loop-start nodes are skipped;
a record that cannot be decoded becomes a placeholder on the root and is left out of a
body. -/
def survivor? (g : Registry) (level : Level) (r : Record) : Option Face :=
  if g.platform.isPseudoTag r.tag then none
  else match g.face? r with
    | some face => some face
    | none => if level = .root then some (placeholder g.platform r).face else none

theorem isLoop_iff {r : Record} : g.isLoop r = true ↔
    g.platform.isPseudoTag r.tag = false ∧
      ∃ face, g.face? r = some face ∧ face.kind = .iteration := by
  simp [isLoop, Option.any_eq_true]

theorem kind?_of_isLoop (hg : g.UsesBuiltIns) {r : Record} (hloop : g.isLoop r = true) :
    g.kind? r.tag = some .iteration := by
  obtain ⟨_, face, hface, hkind⟩ := isLoop_iff.mp hloop
  rw [(decode_of_face?_eq_some hg hface).2.1, hkind]

/-- A loop survives on every level, as an iteration node. -/
theorem survivor?_of_isLoop {r : Record} (hloop : g.isLoop r = true) (level : Level) :
    ∃ face, g.survivor? level r = some face ∧ face.kind = .iteration := by
  obtain ⟨hpseudo, face, hface, hkind⟩ := isLoop_iff.mp hloop
  exact ⟨face, by simp [survivor?, hpseudo, hface], hkind⟩

/-- What survives on a level keeps the id of its record, and is an iteration node exactly
if the record is a loop. -/
theorem survivor?_eq_some (hg : g.UsesBuiltIns) {level : Level} {r : Record} {face : Face}
    (hsome : g.survivor? level r = some face) :
    face.id = r.id ∧ (face.kind = .iteration ↔ g.isLoop r = true) := by
  unfold survivor? at hsome
  cases hpseudo : g.platform.isPseudoTag r.tag with
  | true => simp [hpseudo] at hsome
  | false =>
      cases hface : g.face? r with
      | some found =>
          obtain rfl : found = face := by simpa [hpseudo, hface] using hsome
          refine ⟨(decode_of_face?_eq_some hg hface).1, ?_⟩
          rw [isLoop_iff]
          simp [hpseudo, hface]
      | none =>
          have hplaceholder : level = .root ∧ (placeholder g.platform r).face = face := by
            simpa [hpseudo, hface] using hsome
          obtain ⟨_, rfl⟩ := hplaceholder
          refine ⟨rfl, ⟨fun hkind => ?_, fun hloop => ?_⟩⟩
          · cases hkind
          · obtain ⟨_, found, hfound, _⟩ := isLoop_iff.mp hloop
            rw [hface] at hfound
            cases hfound

end Registry

end WorkflowGraph
