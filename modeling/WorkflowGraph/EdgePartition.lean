/-
# Sorting edges by level

Every edge of a document belongs to one of four classes. An internal edge joins two
nodes of one level. An entry edge leads from the start of a loop into its body. A
mixed edge joins nodes of different levels, and a dangling edge has an end that is
not in the graph. Only edges of the first two classes are kept.
-/

import WorkflowGraph.Level

namespace WorkflowGraph

/-- The class of an edge. -/
inductive EdgeClass
  | internal (level : Level)
  | entry (owner : String)
  | mixed
  | dangling
  deriving DecidableEq, Repr

/-- Whether a link leaves a loop on the handle that the platform reserves for the start
of the body, and arrives inside that body. -/
def Link.isLoopStart (p : Platform) (l : Link) (placement : Placement) : Bool :=
  p.iterationStartHandle?.isSome && l.sourceHandle == p.iterationStartHandle?
    && placement.contains (.body l.source) l.target

/-- The class of a link that is listed on a level. -/
def Link.classify (p : Platform) (level : Level) (l : Link) (placement : Placement) : EdgeClass :=
  if l.isLoopStart p placement then .entry l.source
  else match placement.origin? l.source level with
    | some (.start (.body owner)) =>
      if placement.contains (.body owner) l.target then .entry owner else .dangling
    | some (.start .root) => .dangling
    | some (.node source) =>
      if placement.contains source l.target then .internal source
      else if (placement.levelOf? l.target level).isSome then .mixed
      else .dangling
    | none => .dangling

/-- The entry edge that a link means: it leaves the loop itself. -/
def Link.toEntryEdge (l : Link) (owner : String) : Edge :=
  ⟨l.effectiveId, owner, .default, l.target, l.arrival, .iterationStart⟩

/-- The links of a document by class, each class in the order of the document. Internal
links stand with their level, entry edges with their loop. -/
structure EdgePartition where
  internal : List (Level × Link)
  entries : List (String × Edge)
  mixed : List Link
  dangling : List Link
  deriving Inhabited

namespace EdgePartition

/-- The partition of no links. -/
def empty : EdgePartition :=
  ⟨[], [], [], []⟩

/-- The partition with a link of a given class put in front. -/
def cons (l : Link) (c : EdgeClass) (part : EdgePartition) : EdgePartition :=
  match c with
  | .internal level => { part with internal := (level, l) :: part.internal }
  | .entry owner => { part with entries := (owner, l.toEntryEdge owner) :: part.entries }
  | .mixed => { part with mixed := l :: part.mixed }
  | .dangling => { part with dangling := l :: part.dangling }

/-- The partition of links, each with the level on which it is listed. -/
def ofLinks (p : Platform) (placement : Placement) : List (Level × Link) → EdgePartition
  | [] => empty
  | (level, l) :: rest => cons l (l.classify p level placement) (ofLinks p placement rest)

/-- The links that join nodes of a level. -/
def onLevel (part : EdgePartition) (level : Level) : List Link :=
  (part.internal.filter fun entry => entry.1 == level).map Prod.snd

/-- The entry edges of a loop. -/
def entryEdges (part : EdgePartition) (owner : String) : List Edge :=
  (part.entries.filter fun entry => entry.1 == owner).map Prod.snd

/-- The number of links. -/
def size (part : EdgePartition) : Nat :=
  part.internal.length + part.entries.length + part.mixed.length + part.dangling.length

/-- Whether there are no links. -/
def isEmpty (part : EdgePartition) : Bool :=
  part.size == 0

end EdgePartition

end WorkflowGraph
