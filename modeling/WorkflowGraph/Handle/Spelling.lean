/-
# The spelling of handles

How each platform writes the handles of edges. Branches keep the index that their
platform gives them; nothing is renumbered. A spelling that no rule accepts is
kept as a raw handle, so that every spelling can be written back.
-/

import WorkflowGraph.Platform
import WorkflowGraph.Record
import WorkflowGraph.Text.Ends

namespace WorkflowGraph.Handle

/-- The number that digits spell without a zero in front, when it fits in 64 bits.
A spelling with leading zeros would not survive the way back. -/
def index? (digits : List Char) : Option Nat :=
  if digits.isEmpty || !digits.all Text.isDigit then none
  else if 1 < digits.length && digits.head? == some '0' then none
  else
    let n := Text.natOfDigits digits
    if n < Nat.pow 2 64 then some n else none

/-- The number behind a leading word. -/
def indexAfter? (word spelling : String) : Option Nat :=
  (Text.dropStart? word.toList spelling.toList).bind index?

/-- A word followed by a number. -/
def numbered (word : String) (index : Nat) : String :=
  word ++ Text.ofInt index

/-- The number of classes of a classifier, when a handle selects one past the last. -/
def classesExceeded? (h : Handle) (source : Node) : Option Nat :=
  match h, source.config with
  | .case index, .classifier c => if c.classes.length ≤ index then some c.classes.length else none
  | _, _ => none

/-- The position of the first text of a list that equals the given one. -/
def position? (texts : List String) (s : String) : Option Nat :=
  texts.findIdx? fun t => t == s

/-- The handle that a Dify spelling means: branches are named by the ids of cases and
classes. -/
def ofDify (spelling : String) (source : Node) : Handle :=
  if spelling == "source" then .default
  else match source.config with
    | .condition cases =>
      match position? (cases.map BranchCase.id) spelling with
      | some index => .case index
      | none =>
        if spelling == "false" then .fallthrough
        else if spelling == "true" && cases.isEmpty then .case 0
        else .raw spelling
    | .classifier c =>
      match position? (c.classes.map ClassLabel.id) spelling with
      | some index => .case index
      | none => .raw spelling
    | _ => .raw spelling

/-- The Dify spelling of a handle. -/
def toDify (h : Handle) (source : Node) : String :=
  match h with
  | .default => "source"
  | .fallthrough => "false"
  | .raw spelling => spelling
  | .case index =>
    match source.config with
    | .condition cases =>
      match cases[index]? with
      | some c => c.id
      | none => if index = 0 then "true" else Text.ofInt index
    | .classifier c =>
      match c.classes[index]? with
      | some label => label.id
      | none => Text.ofInt index
    | _ => h.display

/-- The handle that a Coze spelling means: the handles of a condition are called `true`,
`true_1`, `true_2` and so on, those of a classifier `branch_0`, `branch_1` and so on. -/
def ofCoze (spelling : String) (source : Node) : Handle :=
  match source.config with
  | .condition _ =>
    if spelling == "true" then .case 0
    else if spelling == "false" then .fallthrough
    else match indexAfter? "true_" spelling with
      | some index => if 1 ≤ index then .case index else .raw spelling
      | none => .raw spelling
  | .classifier _ =>
    if spelling == "default" then .fallthrough
    else match indexAfter? "branch_" spelling with
      | some index => .case index
      | none => .raw spelling
  | _ => .raw spelling

/-- The Coze spelling of a handle; edges without a condition have none. -/
def toCoze? (h : Handle) (source : Node) : Option String :=
  match h, source.config with
  | .default, _ => none
  | .case 0, .condition _ => some "true"
  | .case index, .condition _ => some (numbered "true_" index)
  | .case index, _ => some (numbered "branch_" index)
  | .fallthrough, .condition _ => some "false"
  | .fallthrough, _ => some "default"
  | .raw spelling, _ => some spelling

/-- The handle that a Bailian spelling means: the branches of condition and classifier
nodes are called `branch_0`, `branch_1` and so on. -/
def ofBailian (spelling : String) (source : Node) : Handle :=
  if spelling == "out" then .default
  else if !source.kind.isBranching then .raw spelling
  else if spelling == "else" then .fallthrough
  else match indexAfter? "branch_" spelling with
    | some index => .case index
    | none => .raw spelling

/-- The Bailian spelling of a handle. -/
def toBailian (h : Handle) : String :=
  match h with
  | .default => "out"
  | .case index => numbered "branch_" index
  | .fallthrough => "else"
  | .raw spelling => spelling

/-- The handle that a platform's spelling on an edge leaving `source` means. No
spelling, and the empty one, mean flow without a condition. -/
def ofSpelling (p : Platform) (spelling : Option String) (source : Node) : Handle :=
  match spelling with
  | none => .default
  | some s =>
    if s.isEmpty then .default
    else match p with
      | .dify => ofDify s source
      | .coze => ofCoze s source
      | .bailian => ofBailian s source

/-- The spelling that a platform uses for a handle on an edge leaving `source`; none
when the platform leaves the handle out. -/
def spelling? (p : Platform) (h : Handle) (source : Node) : Option String :=
  match h with
  | .raw s => some s
  | h =>
    match p with
    | .dify => some (toDify h source)
    | .coze => toCoze? h source
    | .bailian => some (toBailian h)

end WorkflowGraph.Handle

namespace WorkflowGraph.Link

/-- The edge that a link means, given the node that it leaves. -/
def toEdge (p : Platform) (l : Link) (source : Node) : Edge :=
  ⟨l.effectiveId, l.source, .ofSpelling p l.sourceHandle source, l.target, l.arrival, .control⟩

end WorkflowGraph.Link
