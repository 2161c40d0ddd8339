/-
# Surveying a document

The entries of the resolver that a document calls for, collected before any pointer
is resolved: the outputs of loops get the one name that the graph uses, and the
loop-start nodes stand for their loops.

The body of a loop is stored on its record, or in the section of its id. A chain of
loops each inside the one before that uses no section twice is never longer than
`depthBound`, and a document with a longer chain is refused.
-/

import WorkflowGraph.Registry

namespace WorkflowGraph

mutual
/-- The greatest number of bodies stored inside one another below the records of a
list. -/
def Record.inlineDepth : List Record → Nat
  | [] => 0
  | ⟨_, _, _, _, _, _, blocks, _⟩ :: rs => max (Blocks.inlineDepth blocks) (Record.inlineDepth rs)

/-- The number of bodies stored inside one another on a record. -/
def Blocks.inlineDepth : Option Blocks → Nat
  | none => 0
  | some ⟨records, _⟩ => Record.inlineDepth records + 1
end

namespace Document

/-- The body of a loop: the one on its record, or the section of its id. -/
def body? (d : Document) (r : Record) : Option Blocks :=
  r.blocks.orElse fun _ => Table.get? r.id d.sections

/-- The greatest number of bodies stored inside one another anywhere in the document. -/
def inlineDepth (d : Document) : Nat :=
  d.sections.entries.foldl (fun n entry => max n (Record.inlineDepth entry.2.records))
    (Record.inlineDepth d.records)

/-- A bound on the number of levels that enclose one another. -/
def depthBound (d : Document) : Nat :=
  (1 + d.sections.entries.length) * (1 + d.inlineDepth)

end Document

namespace Survey

variable (g : Registry) (d : Document)

/-- The entries for the outputs of a loop that have another name than the graph's. -/
def outputEntries (r : Record) : List Resolver.Entry :=
  (r.outputs.filter fun o => o.name != iterationOutput).map fun o =>
    .renamed r.id o.name iterationOutput

/-- The entry for the loop-start node that the parameters of a loop name. -/
def startEntries (r : Record) : List Resolver.Entry :=
  match (r.param? "start_node_id").bind Json.str? with
  | some start => if start.isEmpty then [] else [.aliased start r.id]
  | none => []

/-- The entries that one record calls for. Inside a loop, `owner` is its id. The body
of a loop is surveyed by `inner`; nothing comes back when it is nested too deep. -/
def ofRecord (inner : String → Blocks → Option (List Resolver.Entry)) (owner : Option String)
    (r : Record) : Option (List Resolver.Entry) :=
  match owner.filter fun _ => g.platform.isPseudoTag r.tag with
  | some loop => some [.aliased r.id loop]
  | none =>
    if g.kind? r.tag ≠ some .iteration then some []
    else
      let own := outputEntries r ++ startEntries r
      match d.body? r with
      | some body => (inner r.id body).map fun entries => own ++ entries
      | none => some own

/-- The entries that the records of a list call for, in order. -/
def ofRecords (inner : String → Blocks → Option (List Resolver.Entry)) (owner : Option String) :
    List Record → Option (List Resolver.Entry)
  | [] => some []
  | r :: rs => do
    let entries ← ofRecord g d inner owner r
    let rest ← ofRecords inner owner rs
    return entries ++ rest

/-- The entries of a level that encloses fewer than the given number of levels. -/
def within : Nat → Option String → List Record → Option (List Resolver.Entry)
  | 0, _, _ => none
  | n + 1, owner, records =>
    ofRecords g d (fun loop body => within n (some loop) body.records) owner records

/-- The resolver of a document. -/
def resolver? : Option Resolver :=
  (within g d d.depthBound none d.records).map Resolver.ofEntries

end Survey

end WorkflowGraph
