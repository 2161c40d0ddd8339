/-
# Lifting a document

All records of a document are decoded level by level: the bodies of loops are lifted
out of the document and become levels of their own. What is found on the way is
collected in a harvest, to which the records only ever add.

A record of the root that cannot be decoded becomes a placeholder, and one inside a
body is left out. End nodes wait until all other records are done, because they
leave out inputs from nodes that were removed. A body without a loop that could hold
it is not lifted at all: its records are reported, and its links are kept so that
they are reported too.
-/

import WorkflowGraph.Conversion.Report
import WorkflowGraph.Conversion.Survey
import WorkflowGraph.Level

namespace WorkflowGraph

/-- A node in document order, or the record of an end node that is decoded last. -/
inductive Slot
  | ready (n : Node)
  | deferred (r : Record)

/-- What the records of a document yield: the lifted levels, the links with the levels
on which they are listed, the places of the nodes and of the loop-start nodes, the ids
of the removed nodes, the sections that were lifted, and a report. -/
structure Harvest where
  levels : List (Level × List Slot)
  links : List (Level × Link)
  placed : List (String × Level)
  starts : List (String × String)
  removed : List String
  usedSections : List String
  report : Report

namespace Harvest

/-- The harvest of nothing. -/
def empty : Harvest :=
  ⟨[], [], [], [], [], [], .empty⟩

instance : Inhabited Harvest := ⟨empty⟩

/-- One harvest after another. -/
def append (a b : Harvest) : Harvest :=
  ⟨a.levels ++ b.levels, a.links ++ b.links, a.placed ++ b.placed, a.starts ++ b.starts,
    a.removed ++ b.removed, a.usedSections ++ b.usedSections, a.report ++ b.report⟩

instance : Append Harvest := ⟨append⟩

/-- The links that are listed on a level. -/
def ofLinks (level : Level) (links : List Link) : Harvest :=
  { empty with links := links.map fun l => (level, l) }

/-- A lifted level. -/
def ofLevel (level : Level) (slots : List Slot) : Harvest :=
  { empty with levels := [(level, slots)] }

/-- A removed loop-start node. -/
def ofStart (level : Level) (id : String) : Harvest :=
  { empty with
    removed := [id]
    starts := match level with
      | .body owner => [(id, owner)]
      | .root => [] }

/-- A decoded node. -/
def ofNode (level : Level) (n : Node) : Harvest :=
  { empty with placed := [(n.id, level)], report := { Report.empty with converted := 1 } }

/-- A record of the root that is replaced by a node. -/
def ofPlaceholder (r : Record) (n : Node) (e : DecodeError) : Harvest :=
  { empty with
    placed := [(n.id, .root)]
    removed := [r.id]
    report := ⟨[.unsupportedNode r.id r.tag e.message], 0, [r.id], []⟩ }

/-- A record of a body that is left out. -/
def ofDropped (owner : String) (r : Record) (reason : String) : Harvest :=
  { empty with
    removed := [r.id]
    report := ⟨[.droppedBlock owner r.id r.tag reason], 0, [], [r.id]⟩ }

end Harvest

/-- Why a body is not lifted. -/
def Harvest.orphanReason (owner : String) : String :=
  "'" ++ owner ++ "' is not a converted iteration"

mutual
/-- The harvest of a body that is not lifted, and of the bodies inside it. -/
def Harvest.ofUnlifted (p : Platform) (owner : String) : Blocks → Harvest
  | ⟨records, links⟩ =>
    .ofLinks (.body owner) links ++ Harvest.ofUnliftedRecords p owner records

/-- The harvest of the records of a body that is not lifted. -/
def Harvest.ofUnliftedRecords (p : Platform) (owner : String) : List Record → Harvest
  | [] => .empty
  | ⟨id, tag, title, params, inputs, outputs, blocks, presentation⟩ :: rs =>
    let r : Record := ⟨id, tag, title, params, inputs, outputs, blocks, presentation⟩
    let rest := Harvest.ofUnliftedRecords p owner rs
    if p.isPseudoTag tag then { Harvest.empty with removed := [id] } ++ rest
    else .ofDropped owner r (orphanReason owner) ++ Harvest.ofUnliftedInner p id blocks ++ rest

/-- The harvest of the body on a record that is not lifted. -/
def Harvest.ofUnliftedInner (p : Platform) (owner : String) : Option Blocks → Harvest
  | none => .empty
  | some b => Harvest.ofUnlifted p owner b
end

namespace Lift

variable (g : Registry) (d : Document) (resolver : Resolver)

/-- The context in which a record is decoded. -/
def context (removed : List String) : DecodeContext :=
  ⟨g.platform, resolver, removed⟩

/-- Decodes a record on a level: the node it becomes, if any, and what it yields. -/
def decodeRecord (level : Level) (removed : List String) (r : Record) : Option Node × Harvest :=
  let ctx := context g resolver removed
  match level with
  | .root =>
    let decoded := g.decodeOrPlaceholder ctx r
    match decoded.fallback with
    | none => (some decoded.node, .ofNode .root decoded.node)
    | some e => (some decoded.node, .ofPlaceholder r decoded.node e)
  | .body owner =>
    match g.decode ctx r with
    | .ok n => (some n, .ofNode level n)
    | .error e => (none, .ofDropped owner r e.message)

/-- The section that is lifted with a loop: the one of its id, unless the body is
stored on the record. -/
def usedSection (r : Record) : List String :=
  if r.blocks.isNone && Table.hasKey r.id d.sections then [r.id] else []

/-- What the body of a record yields, once the record itself is decoded. The body of
a loop is lifted by `inner`, which is given the ids removed so far. -/
def bodyHarvest (inner : Level → List String → Blocks → Option Harvest) (removed : List String)
    (r : Record) (n : Option Node) : Option Harvest :=
  if (n.map Node.kind) = some .iteration then
    let used : Harvest := { Harvest.empty with usedSections := usedSection d r }
    match d.body? r with
    | some body => (inner (.body r.id) removed body).map fun h => used ++ h
    | none => some used
  else some (Harvest.ofUnliftedInner g.platform r.id r.blocks)

/-- Lifts one record. -/
def record (inner : Level → List String → Blocks → Option Harvest) (level : Level)
    (removed : List String) (r : Record) : Option (List Slot × Harvest) :=
  if g.platform.isPseudoTag r.tag then some ([], .ofStart level r.id)
  else if g.kind? r.tag = some .finish then some ([.deferred r], .empty)
  else
    let (n, h) := decodeRecord g resolver level removed r
    (bodyHarvest g d inner (removed ++ h.removed) r n).map fun body =>
      ((n.map Slot.ready).toList, h ++ body)

/-- Lifts the records of a list in order. -/
def records (inner : Level → List String → Blocks → Option Harvest) (level : Level) :
    List String → List Record → Option (List Slot × Harvest)
  | _, [] => some ([], .empty)
  | removed, r :: rs => do
    let (slots, h) ← record g d resolver inner level removed r
    let (more, rest) ← records inner level (removed ++ h.removed) rs
    return (slots ++ more, h ++ rest)

/-- Lifts a level that encloses fewer than the given number of levels. A level stands
after the levels inside it. -/
def within : Nat → Level → List String → Blocks → Option Harvest
  | 0, _, _, _ => none
  | n + 1, level, removed, body => do
    let (slots, h) ← records g d resolver (within n) level removed body.records
    return .ofLinks level body.links ++ h ++ .ofLevel level slots

/-- Lifts a document from its root. -/
def root? : Option Harvest :=
  within g d resolver d.depthBound .root [] ⟨d.records, d.links⟩

/-- What the sections yield that were not lifted. -/
def orphans (used : List String) : Harvest :=
  (d.sections.entries.filter fun entry => !used.contains entry.1).foldr
    (fun entry h => Harvest.ofUnlifted g.platform entry.1 entry.2 ++ h) .empty

/-- Decodes the records of end nodes in the slots of a level. -/
def finishSlots (level : Level) : List String → List Slot → List Node × Harvest
  | _, [] => ([], .empty)
  | removed, .ready n :: slots =>
    let (ns, h) := finishSlots level removed slots
    (n :: ns, h)
  | removed, .deferred r :: slots =>
    let (n, h) := decodeRecord g resolver level removed r
    let (ns, rest) := finishSlots level (removed ++ h.removed) slots
    (n.toList ++ ns, h ++ rest)

/-- Decodes the records of end nodes on all levels. -/
def finishLevels : List String → List (Level × List Slot) → List (Level × List Node) × Harvest
  | _, [] => ([], .empty)
  | removed, (level, slots) :: levels =>
    let (ns, h) := finishSlots g resolver level removed slots
    let (rest, hs) := finishLevels (removed ++ h.removed) levels
    ((level, ns) :: rest, h ++ hs)

end Lift

/-- The levels of a document with all of their nodes, and what else the document
yields. -/
structure Lifted where
  levels : List (Level × List Node)
  harvest : Harvest

namespace Lifted

/-- Lifts a document; nothing comes back when loops are nested too deep. -/
def ofDocument? (g : Registry) (d : Document) : Option Lifted := do
  let resolver ← Survey.resolver? g d
  let lifted ← Lift.root? g d resolver
  let h := lifted ++ Lift.orphans g d lifted.usedSections
  let (levels, last) := Lift.finishLevels g resolver h.removed h.levels
  return ⟨levels, h ++ last⟩

/-- Where the nodes lie. -/
def placement (l : Lifted) : Placement :=
  l.harvest.starts.foldl (fun p entry => p.insertStart entry.1 entry.2)
    (l.harvest.placed.foldl (fun p entry => p.insert entry.1 entry.2) .empty)

end Lifted

end WorkflowGraph
