/-
# Binary encoding

The building blocks of the binary form of graphs. Unsigned numbers take one byte up
to 250; a larger one is preceded by a marker that gives its width and is written with
the least significant byte first. Texts and lists are preceded by their length, and
alternatives by their position. Nothing separates one value from the next: a decoder
knows from what it has read where a value ends, and gives back the bytes after it.
-/

import WorkflowGraph.Binary64

namespace WorkflowGraph.Codec

/-- A sequence of bytes. -/
abbrev Bytes := List UInt8

/-- Reads a value from the front of a sequence of bytes and gives back the rest. -/
abbrev Decode (α : Type) := Bytes → Option (α × Bytes)

variable {α β : Type}

/-- The decoder that reads nothing. -/
def pure (a : α) : Decode α :=
  fun bytes => some (a, bytes)

/-- Reads one value after another. -/
def bind (d : Decode α) (f : α → Decode β) : Decode β :=
  fun bytes =>
    match d bytes with
    | some (a, rest) => f a rest
    | none => none

instance : Monad Decode where
  pure := pure
  bind := bind

/-- The decoder that accepts nothing. -/
def fail : Decode α :=
  fun _ => none

/-- Reads one byte. -/
def byte : Decode UInt8
  | [] => none
  | b :: bytes => some (b, bytes)

/-- Reads a number of bytes. -/
def take (n : Nat) : Decode Bytes :=
  fun bytes => if n ≤ bytes.length then some (bytes.take n, bytes.drop n) else none

/-- A number in a given number of bytes, the least significant first. -/
def littleEndian : Nat → Nat → Bytes
  | 0, _ => []
  | width + 1, n => UInt8.ofNat (n % 256) :: littleEndian width (n / 256)

/-- The number that bytes stand for, the least significant first. -/
def ofLittleEndian : Bytes → Nat
  | [] => 0
  | b :: bytes => b.toNat + 256 * ofLittleEndian bytes

/-- Reads a number of a given width in bytes. -/
def fixed (width : Nat) : Decode Nat := do
  let bytes ← take width
  return ofLittleEndian bytes

/-- The bytes of an unsigned number. -/
def encodeNat (n : Nat) : Bytes :=
  if n < 251 then [UInt8.ofNat n]
  else if n < Nat.pow 2 16 then 251 :: littleEndian 2 n
  else if n < Nat.pow 2 32 then 252 :: littleEndian 4 n
  else 253 :: littleEndian 8 n

/-- Reads an unsigned number of at most `width` bytes. A marker for a wider number is
refused, whatever the number. -/
def decodeNat (width : Nat) : Decode Nat := do
  let marker ← byte
  if marker < 251 then return marker.toNat
  else if marker = 251 then fixed 2
  else if marker = 252 then fixed 4
  else if marker = 253 && 8 ≤ width then fixed 8
  else fail

/-- Reads an unsigned number of 64 bits. -/
def decodeLength : Decode Nat := decodeNat 8

/-- Reads an unsigned number of 32 bits. -/
def decodeIndex : Decode Nat := decodeNat 4

/-- The byte of a truth value. -/
def encodeBool (b : Bool) : Bytes :=
  [if b then 1 else 0]

/-- Reads a truth value. -/
def decodeBool : Decode Bool := do
  let b ← byte
  if b = 0 then return false
  else if b = 1 then return true
  else fail

/-- The eight bytes of a floating-point number. -/
def encodeFloat (x : Binary64) : Bytes :=
  littleEndian 8 x.bits.toNat

/-- Reads a floating-point number. -/
def decodeFloat : Decode Binary64 := do
  let n ← fixed 8
  return ⟨UInt64.ofNat n⟩

/-- The bytes of a text: its length in UTF-8, and its UTF-8 form. -/
def encodeText (s : String) : Bytes :=
  let bytes := s.toUTF8.toList
  encodeNat bytes.length ++ bytes

/-- Reads a text. Bytes that are not UTF-8 are refused. -/
def decodeText : Decode String := do
  let length ← decodeLength
  let bytes ← take length
  match String.fromUTF8? ⟨bytes.toArray⟩ with
  | some s => return s
  | none => fail

/-- The bytes of a value that may be absent. -/
def encodeOption (encode : α → Bytes) : Option α → Bytes
  | none => [0]
  | some a => 1 :: encode a

/-- Reads a value that may be absent. -/
def decodeOption (decode : Decode α) : Decode (Option α) := do
  if ← decodeBool then
    let a ← decode
    return some a
  else return none

/-- The bytes of a list: its length, and its items. -/
def encodeList (encode : α → Bytes) (items : List α) : Bytes :=
  encodeNat items.length ++ items.flatMap encode

/-- Reads a number of values. -/
def decodeMany (decode : Decode α) : Nat → Decode (List α)
  | 0 => pure []
  | n + 1 => do
    let a ← decode
    let as ← decodeMany decode n
    return a :: as

/-- Reads a list. -/
def decodeList (decode : Decode α) : Decode (List α) := do
  let length ← decodeLength
  decodeMany decode length

/-- The bytes of one of the alternatives of a list without further values. -/
def encodeAmong [BEq α] (alternatives : List α) (a : α) : Bytes :=
  encodeNat (alternatives.idxOf a)

/-- Reads one of the alternatives of a list. -/
def decodeAmong (alternatives : List α) : Decode α := do
  let index ← decodeIndex
  match alternatives[index]? with
  | some a => return a
  | none => fail

end WorkflowGraph.Codec
