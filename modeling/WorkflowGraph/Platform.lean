/-
# Platforms

The workflow platforms whose documents the library reads, with the tags that they
put on nodes and the handles with which they mark the start of a loop.
-/

import WorkflowGraph.Graph
import WorkflowGraph.Text.Blank

namespace WorkflowGraph

/-- A workflow platform. -/
inductive Platform
  | dify
  | coze
  | bailian
  deriving DecidableEq, Inhabited, Repr

namespace Platform

/-- Every platform. -/
def all : List Platform :=
  [.dify, .coze, .bailian]

/-- The name in small letters. -/
def name : Platform → String
  | .dify => "dify"
  | .coze => "coze"
  | .bailian => "bailian"

/-- The name in JSON. -/
def tag : Platform → String
  | .dify => "Dify"
  | .coze => "Coze"
  | .bailian => "Bailian"

/-- The platform of a name in any letter case, blank ends ignored. -/
def parse? (s : String) : Option Platform :=
  all.find? fun p => Text.sameIgnoringCase p.name (Text.trim s)

/-- The message for a name that belongs to no platform. -/
def unknownMessage (s : String) : String :=
  "Unknown platform '" ++ s ++ "'"

/-- The tags that the platform puts on nodes, and the kinds they stand for. Of
several tags for one kind, the first is the one to write. -/
def nodeTags : Platform → List (String × NodeKind)
  | .dify =>
    [("start", .start), ("end", .finish), ("answer", .finish), ("llm", .llm), ("code", .code),
     ("if-else", .condition), ("question-classifier", .classifier), ("iteration", .iteration)]
  | .coze =>
    [("1", .start), ("2", .finish), ("3", .llm), ("5", .code), ("8", .condition),
     ("22", .classifier), ("21", .iteration)]
  | .bailian =>
    [("Start", .start), ("End", .finish), ("LLM", .llm), ("Script", .code),
     ("Judge", .condition), ("Classifier", .classifier), ("Iteration", .iteration)]

/-- The kind that a tag stands for. -/
def kindOfTag? (p : Platform) (tag : String) : Option NodeKind :=
  (p.nodeTags.find? fun entry => entry.1 == tag).map Prod.snd

/-- The tag to write for a kind. -/
def tagOfKind (p : Platform) (kind : NodeKind) : String :=
  match p.nodeTags.find? fun entry => entry.2 == kind with
  | some (tag, _) => tag
  | none => kind.display

/-- The tag that the platform puts on loop-start nodes, which do nothing and are
left out of the graph. -/
def pseudoTag? : Platform → Option String
  | .dify => some "iteration-start"
  | .coze | .bailian => none

/-- Whether a tag marks a loop-start node. -/
def isPseudoTag (p : Platform) (tag : String) : Bool :=
  p.pseudoTag? == some tag

/-- The handle on a loop from which the edges into its body leave, for platforms
that draw them from the loop itself. -/
def iterationStartHandle? : Platform → Option String
  | .dify => none
  | .coze => some "loop-function-inline-output"
  | .bailian => some "iteration-start"

end Platform

end WorkflowGraph
