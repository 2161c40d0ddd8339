/-
# Levels

While a document is converted, the nodes of all levels are kept apart by the level
they lie on. A placement records on which levels the nodes of each id lie, and in
which bodies loop-start nodes were left out. One id may lie on several levels: seen
from a level, it means the node of that level, and otherwise the one placed first.
-/

import WorkflowGraph.Platform
import WorkflowGraph.Record

namespace WorkflowGraph

/-- The root of a document, or the body of the loop with an id. -/
inductive Level
  | root
  | body (owner : String)
  deriving DecidableEq, Inhabited, Repr

namespace Level

/-- The level as shown to people. -/
def display : Level → String
  | .root => "root"
  | .body owner => "body of '" ++ owner ++ "'"

/-- The level itself if it is among those of a list, and otherwise the first of them. -/
def nearest? (levels : List Level) (level : Level) : Option Level :=
  if levels.contains level then some level else levels.head?

end Level

/-- Where nodes lie, in the order in which they were placed, each place once. The
second list holds the loop-start nodes and the bodies they were left out of. -/
structure Placement where
  nodes : List (String × Level)
  starts : List (String × Level)
  deriving Inhabited

namespace Placement

/-- The placement of no nodes. -/
def empty : Placement :=
  ⟨[], []⟩

/-- Adds an entry at the end of a list unless it is there already. -/
def addOnce (entries : List (String × Level)) (entry : String × Level) : List (String × Level) :=
  if entries.contains entry then entries else entries ++ [entry]

/-- Places a node on a level. -/
def insert (p : Placement) (id : String) (level : Level) : Placement :=
  { p with nodes := addOnce p.nodes (id, level) }

/-- Notes that a loop-start node was left out of the body of a loop. -/
def insertStart (p : Placement) (id owner : String) : Placement :=
  { p with starts := addOnce p.starts (id, .body owner) }

/-- The levels that the entries of an id name, in order. -/
def levelsOf (entries : List (String × Level)) (id : String) : List Level :=
  (entries.filter fun entry => entry.1 == id).map Prod.snd

/-- Whether a node with an id lies on a level. -/
def contains (p : Placement) (level : Level) (id : String) : Bool :=
  p.nodes.contains (id, level)

/-- The level of the node that an id means, seen from a level. -/
def levelOf? (p : Placement) (id : String) (level : Level) : Option Level :=
  Level.nearest? (levelsOf p.nodes id) level

/-- The body of the loop-start node that an id means, seen from a level. -/
def startBody? (p : Placement) (id : String) (level : Level) : Option Level :=
  Level.nearest? (levelsOf p.starts id) level

/-- The loop whose start node an id means, seen from a level. -/
def startOwner? (p : Placement) (id : String) (level : Level) : Option String :=
  match p.startBody? id level with
  | some (.body owner) => some owner
  | _ => none

/-- What the source of an edge means: a node on a level, or the start of a body. -/
inductive Origin
  | node (level : Level)
  | start (body : Level)
  deriving DecidableEq, Repr

/-- What an id means as the source of an edge that is listed on a level. What lies on
that level comes first, nodes before starts. -/
def origin? (p : Placement) (id : String) (level : Level) : Option Origin :=
  match p.levelOf? id level, p.startBody? id level with
  | some l, start =>
    if l = level then some (.node l)
    else if start = some level then some (.start level)
    else some (.node l)
  | none, some body => some (.start body)
  | none, none => none

end Placement

end WorkflowGraph
