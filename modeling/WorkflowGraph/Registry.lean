/-
# Registries

The decoders of one platform, by the tags of the records that they decode.
-/

import WorkflowGraph.Decoder.BuiltIn

namespace WorkflowGraph

/-- The decoders in use for the documents of a platform. -/
structure Registry where
  platform : Platform
  decoders : Table Decoder

namespace Registry

/-- The registry without decoders. -/
def empty (p : Platform) : Registry :=
  ⟨p, ∅⟩

/-- Decodes the records of a tag with a decoder, in place of any earlier one. -/
def register (g : Registry) (tag : String) (d : Decoder) : Registry :=
  { g with decoders := Table.insert tag d g.decoders }

/-- The registry with the library's decoder for every tag of the platform. -/
def withDefaults (p : Platform) : Registry :=
  p.nodeTags.foldl (fun g entry => g.register entry.1 (.builtIn entry.2)) (empty p)

/-- Takes the decoder of a tag away. -/
def unregister (g : Registry) (tag : String) : Registry :=
  { g with decoders := Table.erase tag g.decoders }

/-- Whether a tag has a decoder. -/
def isRegistered (g : Registry) (tag : String) : Bool :=
  Table.hasKey tag g.decoders

/-- The tags that have a decoder, in ascending order. -/
def tags (g : Registry) : List String :=
  Table.keys g.decoders

/-- The decoder of a tag. -/
def decoder (g : Registry) (tag : String) : Except DecodeError Decoder :=
  match Table.get? tag g.decoders with
  | some d => .ok d
  | none => .error (.notRegistered tag)

/-- The kind that the decoder of a tag announces. -/
def kind? (g : Registry) (tag : String) : Option NodeKind :=
  (Table.get? tag g.decoders).map Decoder.kind

/-- Decodes a record with the decoder of its tag. -/
def decode (g : Registry) (ctx : DecodeContext) (r : Record) : Except DecodeError Node := do
  let d ← g.decoder r.tag
  d.decode ctx r

/-- A decoded record: the node, or a placeholder with the reason. -/
structure Decoded where
  node : Node
  fallback : Option DecodeError

/-- Decodes a record, or makes a placeholder for it. -/
def decodeOrPlaceholder (g : Registry) (ctx : DecodeContext) (r : Record) : Decoded :=
  match g.decode ctx r with
  | .ok n => ⟨n, none⟩
  | .error e => ⟨placeholder ctx.platform r, some e⟩

/-- The registry as shown to developers: the platform and the tags. -/
def debugText (g : Registry) : String :=
  "DecoderRegistry \x7b platform: " ++ g.platform.tag ++ ", tags: ["
    ++ ", ".intercalate (g.tags.map Text.quoted) ++ "] \x7d"

end Registry

end WorkflowGraph
