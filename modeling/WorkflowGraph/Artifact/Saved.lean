/-
# Saved artifacts

Writing artifacts to files and reading them back.
-/

import WorkflowGraph.Artifact
import WorkflowGraph.FileStore

namespace WorkflowGraph

/-- Why an artifact could not be saved or loaded. -/
inductive ArtifactError
  | io (reason : String)
  | decode
  deriving DecidableEq, Repr

/-- The reason in words. -/
def ArtifactError.message : ArtifactError → String
  | .io reason => "I/O error: " ++ reason
  | .decode => "Deserialization failed"

namespace Artifact

variable {m : Type → Type} [Monad m]

/-- Writes an artifact to a file. -/
def save (store : FileStore m) (path : String) (a : Artifact) : m (Except ArtifactError Unit) := do
  match ← store.write path a.toBytes with
  | .ok _ => return .ok ()
  | .error e =>
    let action := if e.opened then "write to" else "create"
    return .error (.io ("Could not " ++ action ++ " file '" ++ path ++ "': " ++ e.reason))

/-- The artifact that bytes hold. -/
def decode (bytes : Codec.Bytes) : Except ArtifactError Artifact :=
  match ofBytes? bytes with
  | some a => .ok a
  | none => .error .decode

/-- Reads an artifact from a file. -/
def load (store : FileStore m) (path : String) : m (Except ArtifactError Artifact) := do
  match ← store.read path with
  | .ok bytes => return decode bytes
  | .error e =>
    let action := if e.opened then "read from" else "open"
    return .error (.io ("Could not " ++ action ++ " file '" ++ path ++ "': " ++ e.reason))

end Artifact

end WorkflowGraph
