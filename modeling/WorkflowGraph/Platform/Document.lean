/-
# Platform documents

The reading of a platform's export, and the check that every node in it has an id
and a tag.
-/

import WorkflowGraph.Platform.Bailian
import WorkflowGraph.Platform.Coze
import WorkflowGraph.Platform.Dify

namespace WorkflowGraph.Platform

/-- The document that a platform's export describes, before it is checked. -/
def reshape : Platform → Json → Except FormatError Document
  | .dify => Dify.parse
  | .coze => Coze.parse
  | .bailian => Bailian.parse

/-- The document that a platform's export describes. -/
def parseDocument (p : Platform) (exported : Json) : Except FormatError Document := do
  let d ← p.reshape exported
  d.check
  return d

end WorkflowGraph.Platform
